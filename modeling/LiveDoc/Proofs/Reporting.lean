import LiveDoc.Proofs.CleanResults
import LiveDoc.Proofs.Getting

/-! # Failures are reported once

A query and a plan end only with failures that the hook has not seen. The evaluation in which one
arises hands it to the hook. If the hook raises it again, all the evaluations that wait pass it on
as one that was seen, so that the hook is told of it once, and by the expression that it arose in.
-/

namespace LiveDoc

variable {σ α β : Type}

/-! ## Failures that the hook has not seen -/

namespace Query

/-- The query itself ends with no failure that the hook has seen. -/
def Unseen : Query α → Prop
  | .done result => ∀ fault, result = .error fault → fault.reported = false
  | .read _ _ next => ∀ v, (next v).Unseen
  | .measure _ next => ∀ size, (next size).Unseen
  | .call _ _ next => ∀ v, (next v).Unseen

theorem unseen_pure (a : α) : (pure a : Query α).Unseen :=
  nofun

theorem unseen_fail (error : EvalError) : (fail error : Query α).Unseen := by
  rintro _ ⟨⟩
  rfl

theorem unseen_lift (r : Except EvalError α) : (lift r).Unseen := by
  cases r with
  | ok a => exact unseen_pure a
  | error e => exact unseen_fail e

theorem Unseen.bind {q : Query α} {f : α → Query β} (hq : q.Unseen) (hf : ∀ a, (f a).Unseen) :
    (q.bind f).Unseen := by
  induction q with
  | done result =>
    cases result with
    | ok a => exact hf a
    | error fault =>
      rintro _ ⟨⟩
      exact hq fault rfl
  | read path fresh next ih => exact fun v => ih v (hq v)
  | measure path next ih => exact fun size => ih size (hq size)
  | call name args next ih => exact fun v => ih v (hq v)

theorem Unseen.orNull {q : Query Value} (h : q.Unseen) : (orNull q).Unseen := by
  induction q with
  | done result =>
    cases result with
    | ok v => exact unseen_pure v
    | error fault =>
      intro fault' hr
      cases hm : fault.missing with
      | true => simp [hm] at hr
      | false =>
        obtain rfl : fault = fault' := by simpa [hm] using hr
        exact h fault rfl
  | read path fresh next ih => exact fun v => ih v (h v)
  | measure path next ih => exact fun size => ih size (h size)
  | call name args next ih => exact fun v => ih v (h v)

theorem unseen_pastEnd (path : Path) (places : List Nat) : (pastEnd path places).Unseen := by
  induction places with
  | nil => exact unseen_pure false
  | cons place places ih =>
    unfold pastEnd
    split
    · exact ih
    · intro size
      cases size with
      | none => exact ih
      | some size =>
        show (ite _ _ _ : Query Bool).Unseen
        split
        · exact unseen_pure true
        · exact ih

variable (here : Standpoint)

theorem unseen_follow (parents : Nat) (segments : List String) (fresh : Bool) :
    (follow here parents segments fresh).Unseen := by
  unfold follow
  split
  · exact unseen_pure _
  · intro v
    cases v with
    | some v => exact unseen_pure v
    | none =>
      refine Unseen.bind (q := pastEnd _ _) (unseen_pastEnd _ _) fun past => ?_
      cases past with
      | true => exact unseen_pure _
      | false => exact unseen_fail _

theorem unseen_callNamed (name : String) (args : List Value) :
    (callNamed here name args).Unseen := by
  unfold callNamed
  split
  · exact unseen_lift _
  · exact fun v => unseen_pure v

mutual

/-- Whatever an expression fails with of its own is new. -/
theorem unseen_ofExpr : ∀ e : Expr, (ofExpr here e).Unseen
  | .lit v => by
    unfold ofExpr
    exact unseen_pure v
  | .template parts => by
    unfold ofExpr
    exact (unseen_ofTemplate parts).bind fun v => unseen_pure _
  | .array items => by
    unfold ofExpr
    exact (unseen_ofExprs items).bind fun vs => unseen_pure _
  | .object entries => by
    unfold ofExpr
    exact (unseen_ofEntries entries).bind fun es => unseen_pure _
  | .ref parents steps => by
    unfold ofExpr
    exact unseen_ofReference parents steps false
  | .fresh parents steps => by
    unfold ofExpr
    exact unseen_ofReference parents steps true
  | .call name args => by
    unfold ofExpr
    exact (unseen_ofExprs args).bind fun vs => unseen_callNamed here name vs
  | .unary op operand => by
    unfold ofExpr
    exact (unseen_ofExpr operand).bind fun v => unseen_lift _
  | .binary op left right => by
    unfold ofExpr
    exact (unseen_ofExpr left).bind fun l => (unseen_ofExpr right).bind fun r => unseen_lift _
  | .logical op left right => by
    unfold ofExpr
    have hrest (l : Value) : (if settles op l then pure l else ofExpr here right).Unseen := by
      split
      · exact unseen_pure l
      · exact unseen_ofExpr right
    cases op with
    | coalesce => exact (unseen_ofExpr left).orNull.bind hrest
    | and | or => exact (unseen_ofExpr left).bind hrest
  | .conditional condition yes no => by
    unfold ofExpr
    refine (unseen_ofExpr condition).bind fun c => ?_
    split
    · exact unseen_ofExpr yes
    · exact unseen_ofExpr no
  | .member object key => by
    unfold ofExpr
    exact (unseen_ofExpr object).bind fun v => unseen_pure _
  | .index object index => by
    unfold ofExpr
    exact (unseen_ofExpr object).bind fun v => (unseen_ofExpr index).bind fun i =>
      (unseen_lift _).bind fun key => unseen_pure _

theorem unseen_ofTemplate : ∀ parts : List Part, (ofTemplate here parts).Unseen
  | [.span e] => by
    unfold ofTemplate
    exact unseen_ofExpr e
  | [] => by
    unfold ofTemplate
    exact (unseen_ofParts []).bind fun s => unseen_pure _
  | .text s :: rest => by
    unfold ofTemplate
    exact (unseen_ofParts (.text s :: rest)).bind fun s => unseen_pure _
  | .span e :: part :: rest => by
    unfold ofTemplate
    exact (unseen_ofParts (.span e :: part :: rest)).bind fun s => unseen_pure _

theorem unseen_ofParts : ∀ parts : List Part, (ofParts here parts).Unseen
  | [] => by
    unfold ofParts
    exact unseen_pure _
  | .text s :: rest => by
    unfold ofParts
    exact (unseen_ofParts rest).bind fun t => unseen_pure _
  | .span e :: rest => by
    unfold ofParts
    exact (unseen_ofExpr e).bind fun v => (unseen_ofParts rest).bind fun t => unseen_pure _

theorem unseen_ofExprs : ∀ es : List Expr, (ofExprs here es).Unseen
  | [] => by
    unfold ofExprs
    exact unseen_pure _
  | e :: rest => by
    unfold ofExprs
    exact (unseen_ofExpr e).bind fun v => (unseen_ofExprs rest).bind fun vs => unseen_pure _

theorem unseen_ofEntries : ∀ entries : List (String × Expr), (ofEntries here entries).Unseen
  | [] => by
    unfold ofEntries
    exact unseen_pure _
  | (key, e) :: rest => by
    unfold ofEntries
    exact (unseen_ofExpr e).bind fun v => (unseen_ofEntries rest).bind fun es => unseen_pure _

theorem unseen_ofSteps : ∀ steps : List RefStep, (ofSteps here steps).Unseen
  | [] => by
    unfold ofSteps
    exact unseen_pure _
  | .key name :: rest => by
    unfold ofSteps
    exact (unseen_ofSteps rest).bind fun segments => unseen_pure _
  | .at e :: rest => by
    unfold ofSteps
    exact (unseen_ofExpr e).bind fun v => (unseen_lift _).bind fun key =>
      (unseen_ofSteps rest).bind fun segments => unseen_pure _

theorem unseen_ofReference (parents : Nat) (steps : List RefStep) (fresh : Bool) :
    (ofReference here parents steps fresh).Unseen := by
  unfold ofReference
  split
  · exact unseen_fail _
  · exact (unseen_ofSteps steps).bind fun segments => unseen_follow here parents segments fresh

end

end Query

namespace Plan

/-- The plan itself ends with no failure that the hook has seen. -/
def Unseen : Plan α → Prop
  | .done result => ∀ fault, result = .error fault → fault.reported = false
  | .find _ next => ∀ found, Unseen (next found)
  | .evaluate _ _ next => ∀ v, Unseen (next v)
  | .call _ _ next => ∀ v, Unseen (next v)

theorem Unseen.bind {p : Plan α} {f : α → Plan β} (hp : p.Unseen) (hf : ∀ a, (f a).Unseen) :
    (p.bind f).Unseen := by
  induction p with
  | done result =>
    cases result with
    | ok a => exact hf a
    | error fault =>
      rintro _ ⟨⟩
      exact hp fault rfl
  | find path next ih => exact fun found => ih found (hp found)
  | evaluate site fresh next ih => exact fun v => ih v (hp v)
  | call name args next ih => exact fun v => ih v (hp v)

/-- The plan fails in evaluations only, and it calls no resolver. -/
def Smooth : Plan α → Prop
  | .done result => ∃ a, result = .ok a
  | .find _ next => ∀ found, Smooth (next found)
  | .evaluate _ _ next => ∀ v, Smooth (next v)
  | .call _ _ _ => False

theorem smooth_pure (a : α) : (pure a : Plan α).Smooth :=
  ⟨a, rfl⟩

theorem Smooth.bind {p : Plan α} {f : α → Plan β} (hp : p.Smooth) (hf : ∀ a, (f a).Smooth) :
    (p.bind f).Smooth := by
  induction p with
  | done result =>
    obtain ⟨a, rfl⟩ := hp
    exact hf a
  | find path next ih => exact fun found => ih found (hp found)
  | evaluate site fresh next ih => exact fun v => ih v (hp v)
  | call name args next ih => exact hp.elim

theorem Smooth.unseen {p : Plan α} (h : p.Smooth) : p.Unseen := by
  induction p with
  | done result =>
    obtain ⟨a, rfl⟩ := h
    exact nofun
  | find path next ih => exact fun found => ih found (h found)
  | evaluate site fresh next ih => exact fun v => ih v (h v)
  | call name args next ih => exact h.elim

theorem smooth_gather {item : α → Plan β} (h : ∀ a, (item a).Smooth) (as : List α) :
    (gather item as).Smooth := by
  induction as with
  | nil => exact smooth_pure _
  | cons a rest ih => exact (h a).bind fun b => Smooth.bind ih fun bs => smooth_pure _

theorem smooth_descend (fresh : Bool) (levels : Nat) (found : Found) :
    (descend fresh levels found).Smooth := by
  induction levels generalizing found with
  | zero =>
    cases found with
    | expression site => exact fun v => smooth_pure _
    | _ => exact smooth_pure _
  | succ levels ih =>
    have hpart (path : Path) : (Plan.find path (descend fresh levels)).Smooth := ih
    cases found with
    | expression site => exact fun v => smooth_pure _
    | mapping slots =>
      have hslot (slot : String × Path) : (slotPart fresh levels slot).Smooth :=
        (hpart slot.2).bind fun v => smooth_pure _
      exact Smooth.bind (smooth_gather hslot slots) fun members => smooth_pure _
    | list items =>
      have hitem (path : Path) : (itemPart fresh levels path).Smooth :=
        (hpart path).bind fun v => smooth_pure _
      exact Smooth.bind (smooth_gather hitem items) fun values => smooth_pure _
    | _ => exact smooth_pure _

theorem smooth_resolve (fresh : Bool) (path : Path) : (resolve fresh path).Smooth :=
  fun found => smooth_descend fresh found.levels found

theorem smooth_measure (path : Path) : (measure path).Smooth := by
  intro found
  cases found with
  | expression site =>
    intro v
    dsimp only
    split <;> exact smooth_pure _
  | _ => exact smooth_pure _

theorem unseen_answer {q : Query α} (h : q.Unseen) : (answer q).Unseen := by
  induction q with
  | done result => exact h
  | read path fresh next ih => exact (smooth_resolve fresh path).unseen.bind fun v => ih v (h v)
  | measure path next ih => exact (smooth_measure path).unseen.bind fun size => ih size (h size)
  | call name args next ih => exact fun v => ih v (h v)

/-- Whatever the template of an expression fails with of its own is new. -/
theorem unseen_render (site : Site) : (render site).Unseen := by
  unfold render
  split
  · rintro _ ⟨⟩
    rfl
  · exact unseen_answer (Query.unseen_ofTemplate _ _)

end Plan

/-! ## Plans on their way -/

/-- What is left of a plan that is followed, with the evaluations that wait for it and the world. -/
structure Pursuit (σ α : Type) where
  plan : Plan α
  stack : Stack
  world : World σ

/-- The template of an expression that begins to be evaluated. -/
def Pursuit.entering (site : Site) (stack : Stack) (w : World σ) : Pursuit σ Value :=
  ⟨Plan.render site, .enter site.path :: stack, { w with cache := w.cache.begin }⟩

namespace Request

variable (request : Request σ)

/-- A plan goes on by one step that goes well. -/
inductive Advances (evaluate : Evaluator σ) : Pursuit σ α → Pursuit σ α → Prop where
  | found (path : Path) (next : Found → Plan α) (stack : Stack) (w : World σ) :
    Advances evaluate ⟨.find path next, stack, w⟩
      ⟨next (request.foundAt w path), stack.record (walkReads path), w⟩
  | evaluated {site : Site} {fresh : Bool} {next : Value → Plan α} {stack stack' : Stack}
    {w w' : World σ} {value : Value}
    (run : (evaluate site fresh).Runs stack w (.ok value) stack' w') :
    Advances evaluate ⟨.evaluate site fresh next, stack, w⟩ ⟨next value, stack', w'⟩
  | called {name : String} {args : List Value} {next : Value → Plan α} {stack stack' : Stack}
    {w w' : World σ} {value : Value}
    (run : (request.call name args).Runs stack w (.ok value) stack' w') :
    Advances evaluate ⟨.call name args next, stack, w⟩ ⟨next value, stack', w'⟩

/-- A plan goes on by steps that all go well. -/
def Arrives (evaluate : Evaluator σ) : Pursuit σ α → Pursuit σ α → Prop :=
  Relation.ReflTransGen (request.Advances evaluate)

/-- A plan ends where it is, or with the step that it is at. -/
inductive Stops (evaluate : Evaluator σ) : Pursuit σ α → Except Fault α → Stack → World σ → Prop where
  | done (result : Except Fault α) (stack : Stack) (w : World σ) :
    Stops evaluate ⟨.done result, stack, w⟩ result stack w
  | evaluating {site : Site} {fresh : Bool} {next : Value → Plan α} {stack stack' : Stack}
    {w w' : World σ} {fault : Fault}
    (run : (evaluate site fresh).Runs stack w (.error fault) stack' w') :
    Stops evaluate ⟨.evaluate site fresh next, stack, w⟩ (.error fault) stack' w'
  | calling {name : String} {args : List Value} {next : Value → Plan α} {stack stack' : Stack}
    {w w' : World σ} {fault : Fault}
    (run : (request.call name args).Runs stack w (.error fault) stack' w') :
    Stops evaluate ⟨.call name args next, stack, w⟩ (.error fault) stack' w'

variable {request} {evaluate : Evaluator σ} {stack stack' : Stack} {w w' : World σ}

/-- Every plan that is followed goes on until it stops. -/
theorem arrives_of_runs {p : Plan α} {r : Except Fault α}
    (h : (request.follow evaluate p).Runs stack w r stack' w') :
    ∃ c, request.Arrives evaluate ⟨p, stack, w⟩ c ∧ request.Stops evaluate c r stack' w' := by
  induction p generalizing stack w with
  | done result =>
    obtain ⟨rfl, rfl, rfl⟩ := Task.runs_pure_iff.1 h
    exact ⟨_, .refl, .done _ _ _⟩
  | find path next ih =>
    obtain ⟨c, hc, hs⟩ := ih _ (runs_follow_find h)
    exact ⟨c, .head (.found path next stack w) hc, hs⟩
  | evaluate site fresh next ih =>
    rcases runs_follow_evaluate h with ⟨fault, rfl, hsite⟩ | ⟨value, s, v, hsite, h⟩
    · exact ⟨_, .refl, .evaluating hsite⟩
    · obtain ⟨c, hc, hs⟩ := ih value h
      exact ⟨c, .head (.evaluated hsite) hc, hs⟩
  | call name args next ih =>
    rcases runs_follow_call h with ⟨fault, rfl, hcall⟩ | ⟨value, s, v, hcall, h⟩
    · exact ⟨_, .refl, .calling hcall⟩
    · obtain ⟨c, hc, hs⟩ := ih value h
      exact ⟨c, .head (.called hcall) hc, hs⟩

section Kept

variable {c c' : Pursuit σ α}

/-- What a plan may end with is what it might have ended with from the start. -/
theorem Arrives.unseen (h : request.Arrives evaluate c c') (hc : c.plan.Unseen) :
    c'.plan.Unseen := by
  induction h with
  | refl => exact hc
  | tail _ step ih =>
    cases step with
    | found => exact ih _
    | evaluated run => exact ih _
    | called run => exact ih _

theorem Arrives.smooth (h : request.Arrives evaluate c c') (hc : c.plan.Smooth) :
    c'.plan.Smooth := by
  induction h with
  | refl => exact hc
  | tail _ step ih =>
    cases step with
    | found => exact ih _
    | evaluated run => exact ih _
    | called run => exact ih.elim

/-- The hook is told of nothing on a way on which every evaluation that goes well tells it of
nothing. -/
theorem Arrives.reports (h : request.Arrives evaluate c c')
    (hev : ∀ site fresh stack w value stack' w',
      (evaluate site fresh).Runs stack w (.ok value) stack' w' → w'.reports = w.reports) :
    c'.world.reports = c.world.reports := by
  induction h with
  | refl => rfl
  | tail _ step ih =>
    cases step with
    | found => exact ih
    | evaluated run => exact (hev _ _ _ _ _ _ _ run).trans ih
    | called run =>
      obtain ⟨-, host, rfl⟩ := runs_call_frame run
      exact ih

/-- On its way a plan stays in its setting and has only located expressions evaluated. -/
theorem Arrives.evaluates {f : String → List Value → Except String Value} {S : Setting}
    (h : request.Arrives evaluate c c') (hst : request.Steadily evaluate)
    (hw : request.setting f c.world = S) (hc : c.plan.Evaluates S S.Locates) :
    request.setting f c'.world = S ∧ c'.plan.Evaluates S S.Locates := by
  induction h with
  | refl => exact ⟨hw, hc⟩
  | tail _ step ih =>
    obtain ⟨hw, hc⟩ := ih
    cases step with
    | found path next =>
      subst hw
      exact ⟨rfl, hc⟩
    | evaluated run => exact ⟨setting_steady (hst _ _ _ _ _ _ _ run) hw, hc.2 _⟩
    | called run =>
      obtain ⟨-, host, rfl⟩ := runs_call_frame run
      exact ⟨hw, hc _⟩

end Kept

/-! ## Where failures arise -/

variable (request)

/-- An evaluation fails with an error that arises in the evaluation of an expression: of its own, or
of one that it waits for. -/
inductive Raises : Nat → Site → Bool → Stack → World σ → Site → EvalError → Prop where
  | cycle {left : Nat} {site : Site} {fresh : Bool} {stack : Stack} {w : World σ}
    (unknown : fresh = true ∨ w.cache.lookup (keyOf site) = none)
    (waiting : stack.holds site.path = true) :
    Raises left site fresh stack w site (.cycle (stack.chainTo site.path))
  | tooDeep {site : Site} {fresh : Bool} {stack : Stack} {w : World σ}
    (unknown : fresh = true ∨ w.cache.lookup (keyOf site) = none)
    (free : stack.holds site.path = false) :
    Raises 0 site fresh stack w site (.depth request.options.maxDepth site.path)
  /-- The template of the expression itself ends with the error. -/
  | ending {left : Nat} {site : Site} {fresh : Bool} {stack s : Stack} {w v : World σ}
    {fault : Fault} (unknown : fresh = true ∨ w.cache.lookup (keyOf site) = none)
    (free : stack.holds site.path = false)
    (way : request.Arrives (request.evaluate left) (.entering site stack w) ⟨.done (.error fault), s, v⟩) :
    Raises (left + 1) site fresh stack w site fault.error
  /-- A resolver that the template of the expression calls answers with the error. -/
  | calling {left : Nat} {site : Site} {fresh : Bool} {stack s s' : Stack} {w v v' : World σ}
    {name : String} {args : List Value} {next : Value → Plan Value} {fault : Fault}
    (unknown : fresh = true ∨ w.cache.lookup (keyOf site) = none)
    (free : stack.holds site.path = false)
    (way : request.Arrives (request.evaluate left) (.entering site stack w) ⟨.call name args next, s, v⟩)
    (failed : (request.call name args).Runs s v (.error fault) s' v') :
    Raises (left + 1) site fresh stack w site fault.error
  /-- An expression that the template needs fails with the error. -/
  | waiting {left : Nat} {site inner origin : Site} {fresh anew : Bool} {stack s : Stack}
    {w v : World σ} {next : Value → Plan Value} {error : EvalError}
    (unknown : fresh = true ∨ w.cache.lookup (keyOf site) = none)
    (free : stack.holds site.path = false)
    (way : request.Arrives (request.evaluate left) (.entering site stack w)
      ⟨.evaluate inner anew next, s, v⟩)
    (raised : Raises left inner anew s v origin error) :
    Raises (left + 1) site fresh stack w origin error

/-- A read fails with an error that arises in the evaluation of an expression. -/
def ReadRaises (path : Path) (fresh : Bool) (w : World σ) (origin : Site) (error : EvalError) : Prop :=
  ∃ site anew next s v,
    request.Arrives (request.evaluate request.options.maxDepth) ⟨Plan.resolve fresh path, [], w⟩
        ⟨.evaluate site anew next, s, v⟩ ∧
      request.Raises request.options.maxDepth site anew s v origin error

variable {request}

section Located

variable {f : String → List Value → Except String Value} {S : Setting}

/-- Failures arise in expressions of the document. -/
theorem Raises.locates {left : Nat} {site origin : Site} {fresh : Bool} {error : EvalError}
    (h : request.Raises left site fresh stack w origin error) (hw : request.setting f w = S)
    (hs : S.Locates site) : S.Locates origin := by
  induction h with
  | cycle | tooDeep | ending | calling => exact hs
  | @waiting left site inner _ _ _ stack s w v _ _ _ _ way _ ih =>
    obtain ⟨hv, he⟩ := way.evaluates (request.evaluate_steady left) hw
      (Plan.evaluates_render site)
    exact ih hv he.1

theorem ReadRaises.locates {path : Path} {fresh : Bool} {origin : Site} {error : EvalError}
    (h : request.ReadRaises path fresh w origin error) (hw : request.setting f w = S) :
    S.Locates origin := by
  obtain ⟨site, anew, next, s, v, hway, hr⟩ := h
  obtain ⟨hv, he⟩ := hway.evaluates (request.evaluate_steady _) hw (Plan.evaluates_resolve fresh path)
  exact hr.locates hv he.1

end Located

end Request

/-! ## What the hook is told -/

/-- There is a hook, and it raises every failure again. -/
def Options.Raising (options : Options σ) : Prop :=
  ∃ hook, options.onError = some hook ∧ ∀ error path, hook error path = .raise

/-- A run that goes well tells the hook of nothing. One that fails has told it once, of the failure
that it ends with and by the expression that the failure arose in. -/
structure Reported (arises : Site → EvalError → Prop) (w : World σ) (r : Except Fault α)
    (w' : World σ) : Prop where
  quiet : ∀ a, r = .ok a → w'.reports = w.reports
  once : ∀ fault, r = .error fault → fault.reported = true ∧ ∃ origin, arises origin fault.error ∧
    w'.reports = w.reports ++ [⟨fault.error, origin.path⟩]

namespace Reported

variable {arises : Site → EvalError → Prop} {w w' : World σ}

theorem of_ok (a : α) (h : w'.reports = w.reports) :
    Reported arises w (.ok a : Except Fault α) w' :=
  ⟨fun _ _ => h, nofun⟩

theorem of_error {fault : Fault} {origin : Site} (hs : fault.reported = true)
    (ha : arises origin fault.error)
    (h : w'.reports = w.reports ++ [⟨fault.error, origin.path⟩]) :
    Reported arises w (.error fault : Except Fault α) w' := by
  refine ⟨nofun, ?_⟩
  rintro _ ⟨⟩
  exact ⟨hs, origin, ha, h⟩

end Reported

namespace Request

variable {request : Request σ} {stack stack' : Stack} {w w' : World σ}

theorem runs_recover_of_raising (hr : request.options.Raising) {error : EvalError} {path : Path}
    {r : Except Fault Value} (h : (request.recover error path).Runs stack w r stack' w') :
    r = .error ⟨error, true⟩ ∧ w' = w.told ⟨error, path⟩ := by
  obtain ⟨hook, hhook, hraise⟩ := hr
  unfold recover at h
  simp only [hhook, hraise, Task.runs_bind_iff, Task.runs_onWorld_iff, Task.runs_pure_iff] at h
  obtain ⟨_, _, _, ⟨-, rfl⟩, rfl, -, rfl⟩ := h
  exact ⟨rfl, rfl⟩

/-- What is recovered from arose in the expression itself. -/
theorem reported_recover (hr : request.options.Raising) {arises : Site → EvalError → Prop}
    {error : EvalError} {site : Site} (ha : arises site error) {v : World σ}
    (hv : v.reports = w.reports) {r : Except Fault Value}
    (h : (request.recover error site.path).Runs stack v r stack' w') : Reported arises w r w' := by
  obtain ⟨rfl, rfl⟩ := runs_recover_of_raising hr h
  refine .of_error rfl ha ?_
  rw [World.told, hv]

theorem runs_call_unseen {name : String} {args : List Value} {fault : Fault}
    (h : (request.call name args).Runs stack w (.error fault) stack' w') :
    fault.reported = false := by
  unfold call at h
  cases hr : request.options.registry.get? name with
  | none =>
    simp only [hr, Task.runs_pure_iff] at h
    obtain ⟨hf, -, -⟩ := h
    cases hf
    rfl
  | some resolver =>
    simp only [hr, Task.runs_bind_iff] at h
    obtain ⟨answer, s, v, -, h⟩ := h
    cases answer with
    | ok value => exact nomatch (Task.runs_pure_iff.1 h).1
    | error message =>
      obtain ⟨hf, -, -⟩ := Task.runs_pure_iff.1 h
      cases hf
      rfl

/-- Every evaluation tells the hook of its failure once. -/
def Reporting (request : Request σ) (left : Nat) : Prop :=
  ∀ site fresh stack w r stack' w', (request.evaluate left site fresh).Runs stack w r stack' w' →
    Reported (request.Raises left site fresh stack w) w r w'

theorem Reporting.arrives {left : Nat} (hev : request.Reporting left) {c c' : Pursuit σ α}
    (h : request.Arrives (request.evaluate left) c c') : c'.world.reports = c.world.reports :=
  h.reports fun site fresh stack w value stack' w' hrun =>
    (hev site fresh stack w _ stack' w' hrun).quiet value rfl

/-- The ways in which the template of an expression ends: with nothing told, and then with a failure
of its own if with any, or with a failure that another expression has told. -/
theorem compute_reported {left : Nat} (hev : request.Reporting left) {site : Site} {fresh : Bool}
    (unknown : fresh = true ∨ w.cache.lookup (keyOf site) = none)
    (free : stack.holds site.path = false) {r : Except Fault Value}
    (h : (request.compute (request.evaluate left) site).Runs stack w r stack' w') :
    (w'.reports = w.reports ∧ ∀ fault, r = .error fault → fault.reported = false ∧
        request.Raises (left + 1) site fresh stack w site fault.error) ∨
      ∃ fault, r = .error fault ∧
        Reported (request.Raises (left + 1) site fresh stack w) w (.error fault : Except Fault Value) w' := by
  obtain ⟨s, v, hrun, -, rfl⟩ := runs_compute h
  obtain ⟨c, hway, hstop⟩ := arrives_of_runs hrun
  have hquiet : c.world.reports = w.reports := hev.arrives hway
  cases hstop with
  | done =>
    refine .inl ⟨hquiet, ?_⟩
    rintro fault rfl
    exact ⟨hway.unseen (Plan.unseen_render site) fault rfl, .ending unknown free hway⟩
  | calling failed =>
    obtain ⟨-, host, rfl⟩ := runs_call_frame failed
    refine .inl ⟨hquiet, ?_⟩
    rintro _ ⟨⟩
    exact ⟨runs_call_unseen failed, .calling unknown free hway failed⟩
  | evaluating failed =>
    obtain ⟨hseen, origin, hraised, hreports⟩ := (hev _ _ _ _ _ _ _ failed).once _ rfl
    refine .inr ⟨_, rfl, .of_error hseen (.waiting unknown free hway hraised) ?_⟩
    rw [← hquiet]
    exact hreports

theorem evaluate_reporting (hr : request.options.Raising) (left : Nat) : request.Reporting left := by
  induction left using of_remaining with
  | step left ih =>
    intro site fresh stack w r stack' w' h
    unfold evaluate at h
    rw [Task.runs_bind_iff] at h
    obtain ⟨known, s, v, hk, h⟩ := h
    obtain ⟨rfl, ⟨entry, -, -, rfl, rfl⟩ | ⟨unknown, rfl, rfl⟩⟩ := runs_remembered hk
    · obtain ⟨rfl, rfl, rfl⟩ := Task.runs_pure_iff.1 h
      exact .of_ok _ rfl
    · simp only [Task.runs_bind_iff, Task.runs_stack_iff, and_assoc, exists_and_left,
        exists_eq_left] at h
      cases hh : Stack.holds s site.path with
      | true =>
        simp only [hh, if_true] at h
        exact reported_recover hr (.cycle unknown hh) rfl h
      | false =>
        simp only [hh, Bool.false_eq_true, if_false] at h
        cases left with
        | zero => exact reported_recover hr (.tooDeep unknown hh) rfl h
        | succ left =>
          simp only [Task.runs_bind_iff] at h
          obtain ⟨r', s', v', hc, h⟩ := h
          rcases compute_reported (ih left rfl) unknown hh hc with ⟨hv, hown⟩ | ⟨fault, rfl, hseen⟩
          · cases r' with
            | ok value =>
              obtain ⟨rfl, rfl, rfl⟩ := Task.runs_pure_iff.1 h
              exact .of_ok _ hv
            | error fault =>
              obtain ⟨hnew, hraised⟩ := hown fault rfl
              simp only [hnew, Bool.false_eq_true, if_false] at h
              exact reported_recover hr hraised hv h
          · simp only [(hseen.once fault rfl).1, if_true] at h
            obtain ⟨rfl, rfl, rfl⟩ := Task.runs_pure_iff.1 h
            exact hseen

theorem read_reported (hr : request.options.Raising) {path : Path} {fresh : Bool}
    {r : Except Fault (Option Value)}
    (h : (request.follow (request.evaluate request.options.maxDepth)
      (Plan.resolve fresh path)).Runs [] w r stack' w') :
    Reported (request.ReadRaises path fresh w) w r w' := by
  have hev := evaluate_reporting hr request.options.maxDepth
  obtain ⟨c, hway, hstop⟩ := arrives_of_runs h
  have hquiet : c.world.reports = w.reports := hev.arrives hway
  have hsmooth := hway.smooth (Plan.smooth_resolve fresh path)
  cases hstop with
  | done =>
    obtain ⟨a, rfl⟩ := hsmooth
    exact .of_ok a hquiet
  | calling => exact hsmooth.elim
  | evaluating failed =>
    obtain ⟨hseen, origin, hraised, hreports⟩ := (hev _ _ _ _ _ _ _ failed).once _ rfl
    refine .of_error hseen ⟨_, _, _, _, _, hway, hraised⟩ ?_
    rw [← hquiet]
    exact hreports

end Request

namespace Tree

/-- With a hook that raises every failure again, a read that goes well tells it of nothing. A read
that fails tells it once, of the error that it fails with and by the expression of the document in
which the error arose. -/
theorem failure_reported_once {t t' : Tree σ} (hr : t.options.Raising) (hi : t.inflight = [])
    {base path : Path} {text : String} {asked : ReadOptions} (hp : base.resolve text = .ok path)
    {r : ReadResult} (h : t.Gives base text asked r t') :
    (∀ v, r = .ok v → t'.world.reports = t.world.reports) ∧
      ∀ error, r = .error error → ∃ origin,
        (t.request asked).ReadRaises path asked.fresh t.world origin error ∧
        (∃ place, (t.request asked).foundAt t.world place = .expression origin) ∧
        t'.world.reports = t.world.reports ++ [⟨error, origin.path⟩] := by
  rcases h.cases hi with ⟨e, he, -⟩ | ⟨path', hpath, hread, -⟩
  · rw [hp] at he
    cases he
  · obtain rfl : path = path' := Except.ok.inj (hp.symm.trans hpath)
    obtain ⟨result, stack, hrun, rfl⟩ := Request.ends_read hread
    have hreported := Request.read_reported hr hrun
    constructor
    · intro v hv
      cases result with
      | ok a => exact hreported.quiet a rfl
      | error fault => cases hv
    · intro error he
      cases result with
      | ok a => cases he
      | error fault =>
        cases he
        obtain ⟨-, origin, hraised, hreports⟩ := hreported.once fault rfl
        have hlocated := hraised.locates (f := fun _ _ => .error "") rfl
        exact ⟨origin, hraised, hlocated, hreports⟩

/-- A price `p` that is a gift `g` or else a tax `t`, which comes from a rate `r`; there is neither gift
nor rate. -/
def unpriced : Value :=
  .obj [(".p", .str "${g ?? t}"), (".t", .str "${r}")]

def raisingAgain : Options Unit :=
  { (Options.default : Options Unit) with onError := some fun _ _ => .raise }

def pricing : Tree Unit :=
  ofDocument unpriced raisingAgain ()

theorem pricing_gives :
    (pricing.get .root "p" .default).2 = some (.error (.notFound ⟨["r"]⟩)) := by
  cbv

/-- Of the two references that are not found only the second is reported. -/
theorem pricing_reported : ∃ origin,
    (pricing.request .default).ReadRaises ⟨["p"]⟩ false pricing.world origin
        (.notFound ⟨["r"]⟩) ∧
      (pricing.get .root "p" .default).1.world.reports =
        [⟨.notFound ⟨["r"]⟩, origin.path⟩] := by
  have hgives : pricing.Gives .root "p" .default (.error (.notFound ⟨["r"]⟩))
      (pricing.get .root "p" .default).1 := gives_of_get (Prod.ext rfl pricing_gives)
  have hresolve : Path.root.resolve "p" = .ok ⟨["p"]⟩ := by cbv
  obtain ⟨origin, hraised, -, hreports⟩ :=
    (failure_reported_once ⟨_, rfl, fun _ _ => rfl⟩ rfl hresolve hgives).2 _ rfl
  exact ⟨origin, hraised, hreports⟩

end Tree

end LiveDoc
