import LiveDoc.Proofs.Accounted
import LiveDoc.Proofs.Suspension

/-! # Reads among others

A read waits for resolvers while others go on in the same world. If all that others do there keeps to a
contract on what the steps of plans are answered with, so does all that the read does.
-/

namespace LiveDoc

/-- What the steps of plans may be answered with. -/
structure Contract where
  found : Path → Found → Prop
  /-- The expressions that plans may have evaluated. -/
  located : Site → Prop
  valued : Site → Value → Prop
  called : String → List Value → Value → Prop

/-- What a result is satisfies a condition, unless it is a failure. -/
def WhenOk {α : Type} (Q : α → Prop) (r : Except Fault α) : Prop :=
  ∀ v, r = .ok v → Q v

section WhenOk

variable {α : Type} {Q : α → Prop}

theorem whenOk_ok {v : α} (h : Q v) : WhenOk Q (.ok v) := by
  rintro _ ⟨⟩
  exact h

theorem whenOk_error (fault : Fault) : WhenOk Q (.error fault) :=
  nofun

end WhenOk

namespace Plan

variable {α : Type}

/-- However its steps are answered within a contract, a plan has only located expressions evaluated and
comes to values that satisfy a condition. -/
def Keeps (K : Contract) (Q : α → Prop) : Plan α → Prop
  | .done result => WhenOk Q result
  | .find path next => ∀ found, K.found path found → Keeps K Q (next found)
  | .evaluate site _ next => K.located site ∧ ∀ v, K.valued site v → Keeps K Q (next v)
  | .call name args next => ∀ v, K.called name args v → Keeps K Q (next v)

end Plan

namespace Contract

/-- The contract that allows everything. -/
def free : Contract :=
  ⟨fun _ _ => True, fun _ => True, fun _ _ => True, fun _ _ _ => True⟩

theorem free_keeps {α : Type} (p : Plan α) : p.Keeps free fun _ => True := by
  induction p with
  | done result => exact fun _ _ => trivial
  | find path next ih => exact fun found _ => ih found
  | evaluate site fresh next ih => exact ⟨trivial, fun v _ => ih v⟩
  | call name args next ih => exact fun v _ => ih v

end Contract

namespace Setting

variable {α : Type} {S : Setting}

/-- Steps are answered as in a setting. -/
def contract (S : Setting) : Contract where
  found path found := found = S.find path
  located := S.Locates
  valued site v := ∃ n a, S.account n site = some a ∧ a.result = v
  called name args v := S.call name args = .ok v

/-- A plan that is answered as in a setting comes to what its account says. -/
theorem contract_keeps {p : Plan α} (hp : p.Evaluates S S.Locates) {Q : α → Prop}
    (h : ∀ n a, p.account S (S.account n) = some a → Q a.result) : p.Keeps S.contract Q := by
  induction p with
  | done result =>
    rintro v rfl
    exact h 0 ⟨v, [], []⟩ rfl
  | find path next ih =>
    rintro found rfl
    refine ih _ hp fun n a ha => ?_
    exact h n (a.after (walkReads path) []) (Plan.account_find.2 ⟨a, ha, rfl⟩)
  | evaluate site fresh next ih =>
    refine ⟨hp.1, ?_⟩
    rintro v ⟨m, u, hu, rfl⟩
    refine ih _ (hp.2 _) fun n a ha => ?_
    have ha := Plan.account_mono (fun _ _ => S.account_le (Nat.le_max_right m n)) ha
    exact h (max m n) (a.after u.reads u.uses) (Plan.account_evaluate.2
      ⟨u, S.account_le (Nat.le_max_left m n) hu, a, ha, rfl⟩)
  | call name args next ih =>
    intro v hv
    exact ih v (hp v) fun n a ha => h n a (Plan.account_call.2 ⟨v, hv, ha⟩)

theorem contract_render (site : Site) :
    (Plan.render site).Keeps S.contract (S.contract.valued site) :=
  contract_keeps (Plan.evaluates_render site) fun n _ ha =>
    ⟨n + 1, _, account_succ.2 ⟨_, ha, rfl⟩, rfl⟩

end Setting

namespace Request

variable {σ α : Type} {request : Request σ} {K : Contract} {I : World σ → Prop}

/-- In the promised worlds a read is answered within a contract. They stay promised when the host
changes, when evaluations begin and end, and when values within the contract are kept. -/
structure Upholds (request : Request σ) (K : Contract) (I : World σ → Prop) : Prop where
  onError : request.options.onError = none
  found : ∀ w path, I w →
    K.found path (.ofLocated (locate w.document path (w.context.merge request.context)))
  called : ∀ name r, request.options.registry.get? name = some r →
    ∀ args asked host v, (r.ask args asked host).1 = some (.ok v) → K.called name args v
  kept : ∀ w site entry, I w → K.located site → w.cache.lookup (keyOf site) = some entry →
    K.valued site entry.value
  rendered : ∀ site, K.located site → (Plan.render site).Keeps K (K.valued site)
  host : ∀ w host, I w → I { w with host := host }
  begin : ∀ w, I w → I { w with cache := w.cache.begin }
  finish : ∀ w epoch, I w → I { w with cache := w.cache.finish epoch }
  keep : ∀ w v site value reads, I w → I v → K.located site → K.valued site value →
    I { w with cache := w.cache.insert (keyOf site) ⟨value, v.cache.epoch, reads⟩ }

/-- Every evaluation of a located expression is safe. -/
def EvaluatesSafely (K : Contract) (I : World σ → Prop) (evaluate : Evaluator σ) : Prop :=
  ∀ site fresh, K.located site → (evaluate site fresh).Safe I (WhenOk (K.valued site))

variable (h : request.Upholds K I)

include h

theorem safe_find (path : Path) : (request.find path).Safe I (K.found path) :=
  (Task.safe_onStack _).bind fun _ _ =>
    Task.safe_world.bind fun w hw => Task.safe_pure (h.found w path hw)

theorem safe_recover {Q : Value → Prop} (error : EvalError) (path : Path) :
    (request.recover error path).Safe I (WhenOk Q) := by
  simp only [recover, h.onError]
  exact Task.safe_pure (whenOk_error _)

theorem safe_call (name : String) (args : List Value) :
    (request.call name args).Safe I (WhenOk (K.called name args)) := by
  unfold call
  cases hr : request.options.registry.get? name with
  | none => exact Task.safe_pure (whenOk_error _)
  | some resolver =>
    have hanswer (answer : Except String Value) (asked : Nat) (host : σ)
        (ha : (resolver.ask args asked host).1 = some answer) (v : Value) (hv : answer = .ok v) :
        K.called name args v :=
      h.called name resolver hr args asked host v (hv ▸ ha)
    refine (Task.safe_ask h.host hanswer).bind fun answer ha => ?_
    cases answer with
    | ok v => exact Task.safe_pure (whenOk_ok (ha v rfl))
    | error message => exact Task.safe_pure (whenOk_error _)

theorem safe_follow {evaluate : Evaluator σ} (he : EvaluatesSafely K I evaluate) {p : Plan α}
    {Q : α → Prop} (hp : p.Keeps K Q) : (request.follow evaluate p).Safe I (WhenOk Q) := by
  induction p with
  | done result => exact Task.safe_pure hp
  | find path next ih =>
    unfold follow
    exact (safe_find h path).bind fun found hfound => ih found (hp found hfound)
  | evaluate site fresh next ih =>
    unfold follow
    refine (he site fresh hp.1).bind fun r hr => ?_
    cases r with
    | error fault => exact Task.safe_pure (whenOk_error _)
    | ok v => exact ih v (hp.2 v (hr v rfl))
  | call name args next ih =>
    unfold follow
    refine (safe_call h name args).bind fun r hr => ?_
    cases r with
    | error fault => exact Task.safe_pure (whenOk_error _)
    | ok v => exact ih v (hp v (hr v rfl))

theorem safe_store {site : Site} (hs : K.located site) {v w : World σ} (hv : I v) (hw : I w)
    {result : Except Fault Value} (hr : WhenOk (K.valued site) result) (frames : Stack) :
    I { w with cache := store site v.cache.epoch result frames (w.cache.finish v.cache.epoch) } := by
  have hfinish := h.finish w v.cache.epoch hw
  unfold store
  split
  · next value frame _ =>
    split
    · exact h.keep _ v site value frame.reads hfinish hv hs (hr value rfl)
    · exact hfinish
  · exact hfinish

theorem safe_compute {evaluate : Evaluator σ} (he : EvaluatesSafely K I evaluate) {site : Site}
    (hs : K.located site) : (request.compute evaluate site).Safe I (WhenOk (K.valued site)) := by
  refine (Task.safe_onStack _).bind fun _ _ => Task.safe_world.bind fun v hv => ?_
  refine (Task.safe_onCache h.begin).bind fun _ _ => ?_
  refine (safe_follow h he (h.rendered site hs)).bind fun r hr => ?_
  refine Task.safe_stack.bind fun frames _ => (Task.safe_onStack _).bind fun _ _ => ?_
  refine (Task.safe_onCache fun w hw => safe_store h hs hv hw hr frames).bind fun _ _ => ?_
  exact Task.safe_pure hr

theorem safe_remembered {site : Site} (hs : K.located site) (fresh : Bool) :
    (remembered site fresh).Safe I fun known => ∀ v, known = some v → K.valued site v := by
  unfold remembered
  cases fresh with
  | true => exact Task.safe_pure nofun
  | false =>
    refine Task.safe_world.bind fun w hw => ?_
    cases hl : w.cache.lookup (keyOf site) with
    | none => exact Task.safe_pure nofun
    | some entry =>
      refine (Task.safe_onStack _).bind fun _ _ => Task.safe_pure ?_
      rintro v ⟨⟩
      exact h.kept w site entry hw hs hl

/-- Every evaluation of a located expression is safe, however deep it may nest. -/
theorem safe_evaluate (left : Nat) : EvaluatesSafely K I (request.evaluate left) := by
  induction left with
  | zero =>
    intro site fresh hs
    unfold evaluate
    refine (safe_remembered h hs fresh).bind fun known hk => ?_
    cases known with
    | some v => exact Task.safe_pure (whenOk_ok (hk v rfl))
    | none =>
      refine Task.safe_stack.bind fun frames _ => ?_
      split <;> exact safe_recover h _ _
  | succ left ih =>
    intro site fresh hs
    unfold evaluate
    refine (safe_remembered h hs fresh).bind fun known hk => ?_
    cases known with
    | some v => exact Task.safe_pure (whenOk_ok (hk v rfl))
    | none =>
      refine Task.safe_stack.bind fun frames _ => ?_
      split
      · exact safe_recover h _ _
      · refine (safe_compute h ih hs).bind fun r hr => ?_
        cases r with
        | ok v => exact Task.safe_pure hr
        | error fault =>
          dsimp only
          split
          · exact Task.safe_pure (whenOk_error _)
          · exact safe_recover h _ _

/-- A read is safe if its plan keeps to the contract. -/
theorem safe_read {path : Path} {fresh : Bool}
    (hp : (Plan.resolve fresh path).Keeps K fun _ => True) {w : World σ} (hw : I w) :
    (request.read path fresh w).Safe I (fun _ => True) w.context := by
  have hplan := safe_follow h (safe_evaluate h request.options.maxDepth) hp
  refine (hplan [] w hw).bind fun pair v _ hv => ?_
  obtain ⟨result, stack⟩ := pair
  cases result <;> exact .done hv trivial

end Request

end LiveDoc
