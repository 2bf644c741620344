import LiveDoc.Proofs.Bystanders
import LiveDoc.Proofs.MissingReferences
import LiveDoc.Proofs.Reporting

/-! # Reaching into a substitute

A reference that goes on behind an expression has the expression evaluated and follows the rest in its
result. Where the result has nothing there, the reference still asks at each index whether an array ends
before it. What stands in for a failure is not kept, so each of these questions has the expression
evaluated anew, and the hook is told of its failure again.
-/

namespace LiveDoc

variable {σ α : Type}

namespace Path

variable {path : Path} {n : Nat}

theorem take_append_before (h : n ≤ path.length) (more : List String) :
    (path.append more).take n = path.take n :=
  congrArg Path.mk (List.take_append_of_le_length h)

theorem take_append_behind (h : path.length ≤ n) (more : List String) :
    (path.append more).take n = path.append (more.take (n - path.length)) := by
  refine congrArg Path.mk (List.take_append.trans ?_)
  rw [List.take_of_length_le h]
  rfl

theorem getElem?_append_behind (h : path.length ≤ n) (more : List String) :
    (path.append more).segments[n]? = more[n - path.length]? :=
  List.getElem?_append_right h

end Path

/-! ## References that go on behind an expression -/

namespace Query

theorem indexPlaces_append (place : Nat) (front back : List String) :
    indexPlaces place (front ++ back) =
      indexPlaces place front ++ indexPlaces (place + front.length) back := by
  induction front generalizing place with
  | nil => rfl
  | cons s rest ih =>
    have hnext : place + 1 + rest.length = place + (s :: rest).length := by
      rw [List.length_cons]
      omega
    rw [List.cons_append, indexPlaces, indexPlaces, ih, hnext]
    split <;> rfl

theorem indexPlaces_eq_nil_iff {place : Nat} {segments : List String} :
    indexPlaces place segments = [] ↔ ∀ s ∈ segments, Numeral.index? s = none := by
  induction segments generalizing place with
  | nil => simp [indexPlaces]
  | cons s rest ih =>
    have hrest : indexPlaces (place + 1) rest = [] ↔ ∀ s ∈ rest, Numeral.index? s = none := ih
    rw [indexPlaces, List.forall_mem_cons, ← hrest]
    cases Numeral.index? s <;> simp

/-- One looks for the end of an array at some places and then, if it was at none of them, at others. -/
theorem pastEnd_append (path : Path) (front back : List Nat) :
    pastEnd path (front ++ back) = (pastEnd path front).bind fun past =>
      if past then .done (.ok true) else pastEnd path back := by
  induction front with
  | nil => rfl
  | cons place rest ih =>
    rw [List.cons_append, pastEnd, pastEnd, ih]
    cases (path.segments[place]?).bind Numeral.index? with
    | none => rfl
    | some index =>
      refine congrArg (Query.measure _) (funext fun size => ?_)
      cases size with
      | none => rfl
      | some size =>
        show (if size ≤ index then pure true else _ : Query Bool) =
          Query.bind (if size ≤ index then pure true else pastEnd path rest) _
        split <;> rfl

/-- A reference with markers and names leads straight to an expression. -/
structure Mentions (document : Value) (context : Context) (here : Standpoint) (parents : Nat)
    (names : List String) (site : Site) : Prop where
  climbs : parents ≤ here.owner.length
  plain : parents = 0 → ∃ name ∈ names.head?, name ≠ contextKey
  located : locate document (target here parents names) context = .expression site
  whole : site.rest = []

variable {document : Value} {context : Context} {here : Standpoint} {parents : Nat}
  {names more : List String} {site : Site}

/-- The indices of a reference stand before its end. -/
theorem lt_length_target {n : Nat} (h : n ∈ indexPlaces (here.owner.length - parents) names) :
    n < (target here parents names).length := by
  obtain ⟨hle, hindex⟩ := mem_indexPlaces.1 h
  obtain ⟨i, hi⟩ := Option.isSome_iff_exists.1 hindex
  obtain ⟨name, hname, -⟩ := Option.bind_eq_some_iff.1 hi
  have hlt := (List.getElem?_eq_some_iff.1 hname).1
  rw [length_target]
  omega

namespace Mentions

/-- A reference that goes on does not name the context either. -/
theorem plain_append (h : Mentions document context here parents names site) (more : List String) :
    ¬ (parents = 0 ∧ (names ++ more).head? = some contextKey) := by
  rintro ⟨hparents, hhead⟩
  obtain ⟨name, hname, hne⟩ := h.plain hparents
  rw [List.head?_append, Option.mem_def.1 hname] at hhead
  exact hne (Option.some.inj hhead)

/-- What follows is to be looked for in the result of the expression. -/
theorem locate_append (h : Mentions document context here parents names site) (more : List String) :
    locate document ((target here parents names).append more) context =
      .expression { site with rest := more } := by
  rw [LiveDoc.locate_append, h.located, Located.further, h.whole, List.nil_append]

/-- On the way to the expression there is no other one. -/
theorem free (h : Mentions document context here parents names site) {n : Nat}
    (hn : n < (target here parents names).length) (inner : Site) :
    locate document (((target here parents names).append more).take n) context ≠ .expression inner := by
  rw [Path.take_append_before (Nat.le_of_lt hn)]
  intro hl
  have hlocated := h.located
  rw [← take_append_drop (target here parents names) n, LiveDoc.locate_append, hl, Located.further,
    Located.expression.injEq] at hlocated
  have hrest := h.whole
  rw [← hlocated] at hrest
  have hdrop := (List.append_eq_nil_iff.1 hrest).2
  rw [List.drop_eq_nil_iff] at hdrop
  exact Nat.not_le_of_lt hn hdrop

/-- Up to the expression no array ends too early. -/
theorem not_pastAt (h : Mentions document context here parents names site) {n : Nat}
    (hn : n < (target here parents names).length) (result : Value) :
    ¬ PastAt document context result ((target here parents names).append more) n := by
  intro hpast
  obtain ⟨segment, items, hlost, -⟩ := pastAt_iff_lostAt.1 hpast
  have hgone := valueAt?_take_le (Nat.succ_le_of_lt hn) hlost.gone
  have hwhole : (target here parents names).take (target here parents names).length =
      target here parents names := congrArg Path.mk List.take_length
  rw [Path.take_append_before (Nat.le_refl _), hwhole, valueAt?, h.located, Located.value?, h.whole]
    at hgone
  cases hgone

end Mentions

end Query

namespace Request

variable (request : Request σ)

/-- A reference with markers and names, as a task of an evaluation. -/
def refer (left : Nat) (here : Query.Standpoint) (parents : Nat) (names : List String) (fresh : Bool) :
    Task σ (Except Fault Value) :=
  request.follow (request.evaluate left)
    (Plan.answer (Query.ofReference here parents (names.map .key) fresh))

/-- What a reference does when it knows what the expression on its way has come to. -/
def goOn (left : Nat) (here : Query.Standpoint) (parents : Nat) (names more : List String) :
    Except Fault Value → Task σ (Except Fault Value)
  | .error fault => pure (.error fault)
  | .ok v =>
    match v.descend? more with
    | some part => pure (.ok part)
    | none => request.giveUp left here parents (names ++ more)

variable {request} {left : Nat} {here : Query.Standpoint} {parents : Nat} {names more : List String}
  {fresh : Bool} {site : Site} {stack stack' : Stack} {w w' : World σ} {r : Except Fault Value}

/-- Evaluating does not depend on what is to be looked for in the result. -/
theorem evaluate_same {site' : Site} (h : site.Same site') (left : Nat) (fresh : Bool) :
    request.evaluate left site fresh = request.evaluate left site' fresh := by
  have hremembered : (remembered site fresh : Task σ (Option Value)) = remembered site' fresh := by
    rw [remembered, remembered, keptResult, keptResult, h.keyOf]
  have hcompute (evaluate : Evaluator σ) :
      request.compute evaluate site = request.compute evaluate site' := by
    funext stack w
    rw [compute_eq, compute_eq, h.render, h.1]
    simp only [store, h.keyOf]
  unfold evaluate
  rw [hremembered, h.1]
  simp only [hcompute]

/-! ## Failures that the hook is told of -/

/-- A failure that is recovered from is told to the hook if there is one. -/
theorem Recovered.told {error : EvalError} {path : Path} (hook : request.options.onError ≠ none)
    (h : Recovered request error path stack w r stack' w') : w'.reports ≠ w.reports := by
  cases h with
  | unheard absent => exact absurd absent hook
  | raised => simp [World.told]
  | replaced => simp [World.told]

/-- What was told stays told. -/
theorem told_of_told {v : World σ} (h : w.reports <+: v.reports) (h' : v.reports <+: w'.reports)
    (ht : w'.reports ≠ v.reports) : w'.reports ≠ w.reports := by
  intro hr
  have hv : v.reports = w.reports := silent_of_prefix h h' hr
  exact ht (hr.trans hv.symm)

/-- A plan whose own failures are new ends with one that the hook has seen only after the hook was told
of it. -/
theorem follow_told {evaluate : Evaluator σ} (hst : request.Steadily evaluate)
    (hev : ∀ site fresh stack w fault stack' w',
      (evaluate site fresh).Runs stack w (.error fault) stack' w' → w'.reports ≠ w.reports)
    {p : Plan α} (hp : p.Unseen) {fault : Fault} (hseen : fault.reported = true)
    (h : (request.follow evaluate p).Runs stack w (.error fault) stack' w') :
    w'.reports ≠ w.reports := by
  induction p generalizing stack w with
  | done result =>
    obtain ⟨rfl, -, -⟩ := Task.runs_pure_iff.1 h
    exact absurd hseen (by simp [hp fault rfl])
  | find path next ih => exact ih _ (hp _) (runs_follow_find h)
  | evaluate site fresh next ih =>
    rcases runs_follow_evaluate h with ⟨fault', -, hsite⟩ | ⟨value, s, v, hsite, h⟩
    · exact hev _ _ _ _ _ _ _ hsite
    · exact told_of_told (hst _ _ _ _ _ _ _ hsite).reports (follow_steady hst h).reports
        (ih value (hp value) h)
  | call name args next ih =>
    rcases runs_follow_call h with ⟨fault', hfault, hcall⟩ | ⟨value, s, v, hcall, h⟩
    · cases hfault
      exact absurd hseen (by simp [runs_call_unseen hcall])
    · obtain ⟨-, host, rfl⟩ := runs_call_frame hcall
      exact ih value (hp value) (w := { w with host := host }) h

/-- Where there is a hook, it is told before an evaluation fails. -/
theorem evaluate_told (hook : request.options.onError ≠ none) (left : Nat) :
    ∀ site fresh stack w fault stack' w',
      (request.evaluate left site fresh).Runs stack w (.error fault) stack' w' →
        w'.reports ≠ w.reports := by
  induction left using of_remaining with
  | step left ih =>
    intro site fresh stack w fault stack' w' h
    cases runs_evaluate_cases h with
    | cycle _ _ recovered | tooDeep _ _ _ recovered => exact recovered.told hook
    | computed _ _ remaining run passed =>
      obtain ⟨s, v, hrun, -, rfl⟩ := runs_compute run
      have htold := follow_told (request.evaluate_steady _) (ih _ remaining) (Plan.unseen_render site)
        (passed fault rfl) hrun
      exact htold
    | failed _ _ _ run recovered =>
      exact told_of_told (compute_steady (request.evaluate_steady _) run).reports
        recovered.steady.reports (recovered.told hook)

/-- An expression that comes to no value by itself tells the hook whenever it is evaluated. -/
theorem evaluate_tells {f : String → List Value → Except String Value} {S : Setting}
    (hS : S.Coherent) (hc : request.options.Computes f)
    (hook : request.options.onError ≠ none) (hw : request.setting f w = S) (hcl : w.cache.Clean S)
    (hs : S.Locates site) (hfails : ∀ n, S.account n site = none)
    (h : (request.evaluate left site fresh).Runs stack w r stack' w') : w'.reports ≠ w.reports := by
  cases r with
  | error fault => exact evaluate_told hook left _ _ _ _ _ _ _ h
  | ok v =>
    intro hr
    obtain ⟨n, a, ha, -⟩ := (evaluate_honest hS hc left _ _ _ _ _ _ _ hw hs hcl h).ok hr v rfl
    rw [hfails n] at ha
    cases ha

/-! ## Looking into the result -/

/-- The rest of a reference is settled by what the expression on its way has come to: a failure, a value
with something there, or one without it and no segment that might index an array. -/
def SettledBy (more : List String) (q : Except Fault Value) : Prop :=
  ∀ v, q = .ok v → (v.descend? more).isSome ∨ ∀ s ∈ more, Numeral.index? s = none

theorem not_settledBy_iff {q : Except Fault Value} : ¬ SettledBy more q ↔ ∃ v, q = .ok v ∧
    v.descend? more = none ∧ ¬ ∀ s ∈ more, Numeral.index? s = none := by
  simp only [SettledBy, not_forall, not_or, Option.not_isSome_iff_eq_none, exists_prop]

theorem goOn_steady {q : Except Fault Value}
    (hrun : (request.goOn left here parents names more q).Runs stack w r stack' w') :
    w.reports <+: w'.reports := by
  cases q with
  | error fault =>
    obtain ⟨-, -, rfl⟩ := Task.runs_pure_iff.1 hrun
    exact List.prefix_refl _
  | ok v =>
    rw [goOn] at hrun
    cases hv : v.descend? more with
    | some part =>
      rw [hv] at hrun
      obtain ⟨-, -, rfl⟩ := Task.runs_pure_iff.1 hrun
      exact List.prefix_refl _
    | none =>
      rw [hv] at hrun
      exact (follow_steady (request.evaluate_steady left) hrun).reports

section Behind

variable (h : Query.Mentions w.document (w.context.merge request.context) here parents names site)

include h

/-- At indices before the expression the document shows at once that no array ends. -/
theorem follow_front (left : Nat) (more : List String) {places : List Nat}
    (hbefore : ∀ n ∈ places, n < (Query.target here parents names).length) (stack : Stack) :
    ∃ s, request.follow (request.evaluate left) (Plan.answer
      (Query.pastEnd ((Query.target here parents names).append more) places)) stack w =
        .done (.ok false, s) w := by
  have hfree : ∀ n ∈ places, SuppliedAt w.document (w.context.merge request.context) (keptAccount w)
      ((Query.target here parents names).append more) .null n :=
    fun n hn inner hl => absurd hl (h.free (hbefore n hn) inner)
  obtain ⟨past, s, hdone, hpast⟩ := follow_pastEnd hfree stack
  cases past with
  | false => exact ⟨s, hdone⟩
  | true =>
    obtain ⟨n, hn, hends⟩ := hpast.1 rfl
    exact absurd hends (h.not_pastAt (hbefore n hn) .null)

/-- Without an index behind the expression nothing more is evaluated. -/
theorem giveUp_at_once (left : Nat) (hplain : ∀ s ∈ more, Numeral.index? s = none) (stack : Stack) :
    ∃ s, request.giveUp left here parents (names ++ more) stack w =
      .done (.error (.new (.notFound ((Query.target here parents names).append more))), s) w := by
  obtain ⟨s, hfront⟩ := follow_front h left more (fun n => Query.lt_length_target) stack
  refine ⟨s, ?_⟩
  rw [giveUp, answer_absent, Query.indexPlaces_append, Query.indexPlaces_eq_nil_iff.2 hplain,
    List.append_nil, Query.target_append, follow_bind]
  show Step.bind (request.follow (request.evaluate left) _ stack w) _ = _
  rw [hfront]
  rfl

/-- At the first index behind the expression, the expression is evaluated. -/
theorem pastEnd_evaluates {n : Nat} {front back : List Nat}
    (hbefore : ∀ m ∈ front, m < (Query.target here parents names).length)
    (hbehind : (Query.target here parents names).length ≤ n)
    (hindex : ((more[n - (Query.target here parents names).length]?).bind Numeral.index?).isSome)
    {past : Except Fault Bool}
    (hrun : (request.follow (request.evaluate left) (Plan.answer (Query.pastEnd
      ((Query.target here parents names).append more) (front ++ n :: back)))).Runs stack w past
        stack' w') :
    ∃ s r s' v, (request.evaluate left site false).Runs s w r s' v ∧ v.reports <+: w'.reports := by
  obtain ⟨s, hfront⟩ := follow_front h left more hbefore stack
  rw [Query.pastEnd_append, Plan.answer_bind] at hrun
  have hlook : (request.follow (request.evaluate left) (Plan.answer (Query.pastEnd
      ((Query.target here parents names).append more) (n :: back)))).Runs s w past stack' w' := by
    rcases runs_follow_bind.1 hrun with ⟨fault, -, hfirst⟩ | ⟨ended, s', v, hfirst, hrest⟩
    · rw [Task.Runs, hfront, Step.ends_done_iff] at hfirst
      cases hfirst.1
    · rw [Task.Runs, hfront, Step.ends_done_iff] at hfirst
      obtain ⟨hended, rfl⟩ := hfirst
      cases hended
      exact hrest
  obtain ⟨i, hi⟩ := Option.isSome_iff_exists.1 hindex
  rw [Query.pastEnd, Path.getElem?_append_behind hbehind, hi] at hlook
  have hlook := runs_follow_find hlook
  rw [Path.take_append_behind hbehind, foundAt, h.locate_append] at hlook
  have hsame (rest : List String) : Site.Same { site with rest := rest } site := ⟨rfl, rfl, rfl⟩
  rcases runs_follow_evaluate hlook with ⟨fault, -, hsite⟩ | ⟨value, s', v, hsite, hrest⟩
  · rw [evaluate_same (hsame _)] at hsite
    exact ⟨_, _, _, _, hsite, List.prefix_refl _⟩
  · rw [evaluate_same (hsame _)] at hsite
    exact ⟨_, _, _, _, hsite, (follow_steady (request.evaluate_steady left) hrest).reports⟩

/-- With an index behind the expression, the expression is evaluated once more at least. -/
theorem giveUp_evaluates (hindex : ¬ ∀ s ∈ more, Numeral.index? s = none)
    (hrun : (request.giveUp left here parents (names ++ more)).Runs stack w r stack' w') :
    ∃ s q s' v, (request.evaluate left site false).Runs s w q s' v ∧ v.reports <+: w'.reports := by
  have hne : Query.indexPlaces (Query.target here parents names).length more ≠ [] :=
    mt Query.indexPlaces_eq_nil_iff.1 hindex
  obtain ⟨n, back, hplaces⟩ := List.exists_cons_of_ne_nil hne
  have hmem : n ∈ Query.indexPlaces (Query.target here parents names).length more :=
    hplaces ▸ List.mem_cons_self
  obtain ⟨hbehind, hsome⟩ := Query.mem_indexPlaces.1 hmem
  rw [giveUp, answer_absent, Query.indexPlaces_append, ← Query.length_target, hplaces,
    Query.target_append] at hrun
  have hbefore (m : Nat) (hm : m ∈ Query.indexPlaces (here.owner.length - parents) names) :
      m < (Query.target here parents names).length := Query.lt_length_target hm
  rcases runs_follow_bind.1 hrun with ⟨fault, -, hlook⟩ | ⟨past, s, v, hlook, hrest⟩
  · exact pastEnd_evaluates h hbefore hbehind hsome hlook
  · obtain ⟨s₀, q, s', u, hsite, hmore⟩ := pastEnd_evaluates h hbefore hbehind hsome hlook
    exact ⟨s₀, q, s', u, hsite,
      hmore.trans (follow_steady (request.evaluate_steady left) hrest).reports⟩

theorem goOn_of_settledBy (left : Nat) {q : Except Fault Value} (hq : SettledBy more q) (stack : Stack) :
    ∃ r s, request.goOn left here parents names more q stack w = .done (r, s) w := by
  cases q with
  | error fault => exact ⟨_, _, rfl⟩
  | ok v =>
    rw [goOn]
    cases hv : v.descend? more with
    | some part => exact ⟨_, _, rfl⟩
    | none =>
      have hplain := (hq v rfl).resolve_left (by simp [hv])
      obtain ⟨s, hdone⟩ := giveUp_at_once h left hplain stack
      exact ⟨_, s, hdone⟩

theorem goOn_evaluates {q : Except Fault Value} (hq : ¬ SettledBy more q)
    (hrun : (request.goOn left here parents names more q).Runs stack w r stack' w') :
    ∃ s q s' v, (request.evaluate left site false).Runs s w q s' v ∧ v.reports <+: w'.reports := by
  obtain ⟨v, rfl, hv, hindex⟩ := not_settledBy_iff.1 hq
  rw [goOn, hv] at hrun
  exact giveUp_evaluates h hindex hrun

/-- A reference behind an expression has the expression evaluated and then goes on. -/
theorem refer_eq (more : List String) (stack : Stack) :
    request.refer left here parents (names ++ more) fresh stack w =
      (request.evaluate left site fresh >>= request.goOn left here parents names more)
        (stack.record (walkReads ((Query.target here parents names).append more))) w := by
  have hsame : Site.Same { site with rest := more } site := ⟨rfl, rfl, rfl⟩
  have hquery : Query.ofReference here parents ((names ++ more).map .key) fresh =
      .read ((Query.target here parents names).append more) fresh fun
        | some v => .done (.ok v)
        | none => Query.absent ((Query.target here parents names).append more)
            (here.owner.length - parents) (names ++ more) := by
    rw [Query.ofReference_of_le h.climbs, Query.ofSteps_names, ← Query.target_append]
    exact Query.follow_target (h.plain_append more)
  rw [refer, hquery]
  show request.follow _ (.find _ _) stack w = _
  rw [follow_find, foundAt, h.locate_append more]
  show request.follow _ (.evaluate _ fresh _) _ w = _
  rw [follow_evaluate, evaluate_same hsame]
  refine congrArg (fun next => (request.evaluate left site fresh >>= next) _ w) (funext fun q => ?_)
  cases q with
  | error fault => rfl
  | ok v =>
    rw [goOn, giveUp, Query.target_append]
    show request.follow _ (Plan.answer (match v.descend? more with | some v => _ | none => _)) = _
    cases v.descend? more <;> rfl

/-- A reference that goes on behind an expression does what the reference to it does before it goes on. -/
theorem runs_refer_append_iff :
    (request.refer left here parents (names ++ more) fresh).Runs stack w r stack' w' ↔
      ∃ q s v, (request.evaluate left site fresh).Runs
          (stack.record (walkReads ((Query.target here parents names).append more))) w q s v ∧
        (request.goOn left here parents names more q).Runs s v r stack' w' := by
  rw [Task.Runs, refer_eq h]
  exact Task.runs_bind_iff

theorem runs_refer_iff :
    (request.refer left here parents names fresh).Runs stack w r stack' w' ↔
      (request.evaluate left site fresh).Runs
        (stack.record (walkReads ((Query.target here parents names).append []))) w r stack' w' := by
  have happend : (request.refer left here parents (names ++ []) fresh).Runs stack w r stack' w' ↔ _ :=
    runs_refer_append_iff h
  rw [List.append_nil] at happend
  rw [happend]
  constructor
  · rintro ⟨q, s, v, hrun, hgo⟩
    cases q <;> obtain ⟨rfl, rfl, rfl⟩ := Task.runs_pure_iff.1 hgo <;> exact hrun
  · intro hrun
    refine ⟨r, stack', w', hrun, ?_⟩
    cases r <;> exact Task.runs_pure_iff.2 ⟨rfl, rfl, rfl⟩

/-- Where the rest is not settled, the failing expression is evaluated again, and the hook told. -/
theorem told_again {f : String → List Value → Except String Value}
    (hc : request.options.Computes f) (hcl : w.cache.Clean (request.setting f w))
    (hfails : ∀ n, (request.setting f w).account n site = none) {q : Except Fault Value}
    {s s' : Stack} {v : World σ} (hfirst : (request.evaluate left site fresh).Runs s w q s' v)
    (hq : ¬ SettledBy more q)
    (hgo : (request.goOn left here parents names more q).Runs s' v r stack' w') :
    v.reports.length < w'.reports.length := by
  have hS : (request.setting f w).Coherent := setting_coherent
  have hs : (request.setting f w).Locates site := setting_locates.2 ⟨_, h.located⟩
  have hsteady := request.evaluate_steady left _ _ _ _ _ _ _ hfirst
  have hhonest := evaluate_honest hS hc left _ _ _ _ _ _ _ rfl hs hcl hfirst
  have hv : request.setting f v = request.setting f w := setting_steady hsteady rfl
  have hook : request.options.onError ≠ none := by
    intro hnone
    obtain ⟨value, rfl, -⟩ := not_settledBy_iff.1 hq
    obtain ⟨n, a, ha, -⟩ := hhonest.ok (hsteady.unheard hnone) value rfl
    rw [hfails n] at ha
    cases ha
  rw [← hsteady.document, ← hsteady.context] at h
  obtain ⟨s₁, q', s₂, u, hagain, hmore⟩ := goOn_evaluates h hq hgo
  have htold := evaluate_tells hS hc hook hv (hcl.grows hhonest.grows) hs hfails hagain
  have hkept := (request.evaluate_steady left _ _ _ _ _ _ _ hagain).reports
  have hlt : v.reports.length < u.reports.length :=
    Nat.lt_of_le_of_ne hkept.length_le fun heq => htold (List.IsPrefix.eq_of_length hkept heq).symm
  exact hlt.trans_le hmore.length_le

end Behind

/-- A reference to a path behind an expression first does what the reference to the expression does. If
that settles the rest, it leaves the world as it is: the hook is told of nothing more, and no resolver is
called again, which the host would show. If not, and the expression comes to no value by itself, the hook
is told of a failure at least once more. -/
theorem substitute_reached_into {f : String → List Value → Except String Value}
    (hc : request.options.Computes f) (hcl : w.cache.Clean (request.setting f w))
    (h : Query.Mentions w.document (w.context.merge request.context) here parents names site)
    (left : Nat) (fresh : Bool) (stack : Stack) (more : List String) :
    (request.options.Answers → (stack.map (·.path)).Nodup →
      left + stack.length = request.options.maxDepth →
        ∃ r s w', (request.refer left here parents (names ++ more) fresh).Runs stack w r s w') ∧
    (∀ q s v, (request.refer left here parents names fresh).Runs stack w q s v → SettledBy more q →
      ∃ r s', (request.refer left here parents (names ++ more) fresh).Runs stack w r s' v) ∧
    ∀ r s' w', (request.refer left here parents (names ++ more) fresh).Runs stack w r s' w' →
      ∃ q s v, (request.refer left here parents names fresh).Runs stack w q s v ∧
        v.reports <+: w'.reports ∧ (SettledBy more q → w' = v) ∧
        ((∀ n, (request.setting f w).account n site = none) → ¬ SettledBy more q →
          v.reports.length < w'.reports.length) := by
  have hthere {q : Except Fault Value} {s s' : Stack} {v : World σ}
      (hrun : (request.evaluate left site fresh).Runs s w q s' v) :
      Query.Mentions v.document (v.context.merge request.context) here parents names site := by
    have hsteady := request.evaluate_steady left _ _ _ _ _ _ _ hrun
    rw [hsteady.document, hsteady.context]
    exact h
  refine ⟨fun ha hd hb => ?_, fun q s v hrun hq => ?_, fun r s' w' hrun => ?_⟩
  · have hsound : request.Sound ⟨left, .answer (Query.ofReference here parents
        ((names ++ more).map .key) fresh) _, stack, w⟩ :=
      ⟨hd, hb, Query.within_ofReference parents _ (Bool.le_true _) (Bool.le_true _)⟩
    obtain ⟨⟨r, s⟩, w', hends⟩ := Step.Halts.ends (hsound.halts ha)
    exact ⟨r, s, w', hends⟩
  · obtain ⟨s₁, hfirst⟩ := runs_evaluate_record request ((runs_refer_iff h).1 hrun)
      (walkReads ((Query.target here parents names).append more))
    obtain ⟨r, s', hdone⟩ := goOn_of_settledBy (hthere hfirst) left hq s₁
    refine ⟨r, s', (runs_refer_append_iff h).2 ⟨q, s₁, v, hfirst, ?_⟩⟩
    rw [Task.Runs, hdone]
    exact .done _ _
  · obtain ⟨q, s₁, v, hfirst, hgo⟩ := (runs_refer_append_iff h).1 hrun
    obtain ⟨s, halone⟩ := runs_evaluate_record request hfirst
      (walkReads ((Query.target here parents names).append []))
    refine ⟨q, s, v, (runs_refer_iff h).2 halone, goOn_steady hgo, fun hq => ?_, fun hfails hq => ?_⟩
    · obtain ⟨r₁, s₂, hdone⟩ := goOn_of_settledBy (hthere hfirst) left hq s₁
      rw [Task.Runs, hdone, Step.ends_done_iff] at hgo
      exact hgo.2
    · exact told_again h hc hcl hfails hfirst hq hgo

/-- An expression that refers to nothing, and two that reach into it. -/
def emptied : Value :=
  .obj [(".e", .str "${x}"), (".r", .str "${e.0}"), (".q", .str "${e}")]

/-- Every failure counts as an empty array. -/
def emptying : Options Unit :=
  { (Options.default : Options Unit) with onError := some fun _ _ => .substitute (.arr []) }

def ofEmptied : Request Unit :=
  ⟨emptying, .empty, none⟩

def withEmptied : World Unit :=
  ⟨emptied, .empty, .empty, [], ()⟩

def failing : Site :=
  ⟨⟨[".e"]⟩, "${x}", .empty, []⟩

theorem mentions_failing : Query.Mentions emptied (withEmptied.context.merge ofEmptied.context)
    ⟨.root, .empty⟩ 0 ["e"] failing where
  climbs := Nat.le_refl 0
  plain _ := ⟨"e", rfl, by decide⟩
  located := by cbv
  whole := rfl

theorem account_failing (n : Nat) :
    (ofEmptied.setting (fun _ _ => .ok .null) withEmptied).account n failing = none := by
  cases n with
  | zero => rfl
  | succ n =>
    have hrender (valueOf : Site → Option (Account Value)) : (Plan.render failing).account
        (ofEmptied.setting (fun _ _ => .ok .null) withEmptied) valueOf = none := by
      cbv
    rw [Setting.account, hrender, Option.map_none]

theorem refer_failing : ofEmptied.refer 100 ⟨.root, .empty⟩ 0 ["e"] false [] withEmptied =
    .done (.ok (.arr []), []) { withEmptied with reports := [⟨.notFound ⟨["x"]⟩, ⟨[".e"]⟩⟩] } := by
  cbv

/-- The failure is reported once for the expression and for a name in its substitute, and more often for
an item. -/
theorem substitute_of_failing :
    (∃ r s w', (ofEmptied.refer 100 ⟨.root, .empty⟩ 0 ["e", "0"] false).Runs [] withEmptied r s w' ∧
      1 < w'.reports.length) ∧
    ∀ r s w', (ofEmptied.refer 100 ⟨.root, .empty⟩ 0 ["e", "a"] false).Runs [] withEmptied r s w' →
      w'.reports.length = 1 := by
  have hc : ofEmptied.options.Computes fun _ _ => .ok .null := by
    intro name r hr
    cases hr
  have ha : ofEmptied.options.Answers := by
    intro name r hr
    cases hr
  have hcl : withEmptied.cache.Clean (ofEmptied.setting (fun _ _ => .ok .null) withEmptied) :=
    Cache.clean_empty _
  have hinto := substitute_reached_into hc hcl mentions_failing 100 false []
  have halone {q : Except Fault Value} {s : Stack} {v : World Unit}
      (h : (ofEmptied.refer 100 ⟨.root, .empty⟩ 0 ["e"] false).Runs [] withEmptied q s v) :
      q = .ok (.arr []) ∧ v.reports.length = 1 := by
    rw [Task.Runs, refer_failing, Step.ends_done_iff] at h
    obtain ⟨hq, rfl⟩ := h
    exact ⟨congrArg Prod.fst hq, rfl⟩
  have hitem : ¬ SettledBy ["0"] (.ok (.arr [])) :=
    not_settledBy_iff.2 ⟨_, rfl, by decide, by decide⟩
  have hname : SettledBy ["a"] (.ok (.arr [])) := fun _ _ => .inr (by decide)
  constructor
  · obtain ⟨hends, -, hruns⟩ := hinto ["0"]
    obtain ⟨r, s, w', hrun⟩ := hends ha .nil rfl
    obtain ⟨q, s₁, v, hfirst, -, -, hagain⟩ := hruns r s w' hrun
    obtain ⟨rfl, hv⟩ := halone hfirst
    exact ⟨r, s, w', hrun, hv ▸ hagain account_failing hitem⟩
  · obtain ⟨-, -, hruns⟩ := hinto ["a"]
    intro r s w' hrun
    obtain ⟨q, s₁, v, hfirst, -, hsettled, -⟩ := hruns r s w' hrun
    obtain ⟨rfl, hv⟩ := halone hfirst
    rw [hsettled hname, hv]

/-- A read of the reference to the failing expression tells the hook once, a read of the reference to an
item of its substitute twice. -/
theorem substitute_reported_twice :
    ((Tree.ofDocument emptied emptying ()).get .root "q" .default).1.world.reports =
        [⟨.notFound ⟨["x"]⟩, ⟨[".e"]⟩⟩] ∧
      ((Tree.ofDocument emptied emptying ()).get .root "r" .default).1.world.reports =
        [⟨.notFound ⟨["x"]⟩, ⟨[".e"]⟩⟩, ⟨.notFound ⟨["x"]⟩, ⟨[".e"]⟩⟩] := by
  constructor <;> cbv

end Request

end LiveDoc
