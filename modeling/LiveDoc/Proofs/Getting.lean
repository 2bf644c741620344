import LiveDoc.Proofs.Finishing
import LiveDoc.Proofs.Runs
import LiveDoc.Proofs.Sharing

/-! # Whole reads of a tree

A read that is begun, polled and ended comes to what its steps come to, and it ends if every
resolver answers in the end.
-/

namespace LiveDoc

variable {σ α β : Type}

namespace Progress

/-- What is left of a computation ends with a result when it goes on from a world. -/
def Ends (p : Progress σ α) (w : World σ) (r : α) (w' : World σ) : Prop :=
  match p with
  | .finished result => r = result ∧ w' = w
  | .waiting call next => ∃ answer asked host host',
      (call.resolver.ask call.args asked host).1 = some answer ∧
        (next answer { w with host := host' }).Ends r w'

theorem ends_ofStep {s : Step σ α} {r : α} {w' : World σ}
    (h : (Progress.ofStep s).Ends s.world r w') : s.Ends r w' := by
  cases s with
  | done a w =>
    obtain ⟨rfl, rfl⟩ := h
    exact .done _ _
  | wait call next w =>
    obtain ⟨answer, asked, host, host', hanswer, hn⟩ := h
    exact .wait hanswer hn

theorem ends_of_poll {p : Progress σ α} {w w' : World σ} {r : α} (h : (p.poll w).Ends r w') :
    p.Ends w r w' := by
  cases p with
  | finished result => exact Step.ends_done_iff.1 h
  | waiting call next => exact Step.ends_poll h

theorem ends_of_result {p : Progress σ α} {r : α} (h : p.result? = some r) (w : World σ) :
    p.Ends w r w := by
  cases p with
  | finished result => exact ⟨(Option.some.inj h).symm, rfl⟩
  | waiting call next => cases h

end Progress

namespace Tree

variable {t t' : Tree σ} {r : ReadResult}

theorem settle_alone {n : Nat} {p : Progress σ ReadResult}
    (h : settle n t (.alone p) = (t', some r)) :
    ∃ w', p.Ends t.world r w' ∧ t' = { t with world := w' } := by
  induction n generalizing t p with
  | zero =>
    obtain ⟨rfl, hr⟩ := Prod.mk.inj h
    exact ⟨_, Progress.ends_of_result hr _, rfl⟩
  | succ n ih =>
    unfold settle at h
    cases hr : t.result? (.alone p) with
    | some result =>
      simp only [hr, Prod.mk.injEq, Option.some.injEq] at h
      obtain ⟨rfl, rfl⟩ := h
      exact ⟨_, Progress.ends_of_result hr _, rfl⟩
    | none =>
      simp only [hr, poll] at h
      obtain ⟨w', hw', rfl⟩ := ih h
      exact ⟨w', Progress.ends_of_poll (Progress.ends_ofStep hw'), rfl⟩

/-- A read goes on with the shared evaluation of its number, whatever other evaluations there are. -/
theorem settle_joined {n number : Nat} {p : Progress σ ReadResult}
    (hs : t.shared[number]? = some p) (h : settle n t (.joined number) = (t', some r)) :
    p.Ends t.world r t'.world ∧ t'.options = t.options := by
  have hres : t.result? (.joined number) = p.result? := by simp [Tree.result?, hs]
  induction n generalizing t p with
  | zero =>
    obtain ⟨rfl, hr⟩ := Prod.mk.inj h
    exact ⟨Progress.ends_of_result (hres.symm.trans hr) _, rfl⟩
  | succ n ih =>
    unfold settle at h
    cases hr : p.result? with
    | some result =>
      simp only [hres, hr, Prod.mk.injEq, Option.some.injEq] at h
      obtain ⟨rfl, rfl⟩ := h
      exact ⟨Progress.ends_of_result hr _, rfl⟩
    | none =>
      have hlt : number < t.shared.length := (List.getElem?_eq_some_iff.1 hs).1
      obtain ⟨ho, hw, hset⟩ := t.keepShared_eq number (p.poll t.world)
      have hs' : (t.keepShared number (p.poll t.world)).shared[number]? =
          some (.ofStep (p.poll t.world)) := by
        rw [hset, List.getElem?_set_self hlt]
      simp only [hres, hr, poll, pollShared, hs] at h
      obtain ⟨he, ho'⟩ := ih hs' h (by simp [Tree.result?, hs'])
      rw [hw] at he
      exact ⟨Progress.ends_of_poll (Progress.ends_ofStep he), ho'.trans ho⟩

/-- A shared evaluation that only one read has begun. -/
structure Shares (t : Tree σ) (number : Nat) (p : Progress σ ReadResult) : Prop where
  shared : t.shared[number]? = some p
  inflight : ∀ e ∈ t.inflight, e.2 = number
  finished : p.result?.isSome → t.inflight = []

theorem shares_keepShared (number : Nat) (hs : number < t.shared.length)
    (hi : ∀ e ∈ t.inflight, e.2 = number) (step : Step σ ReadResult) :
    (t.keepShared number step).Shares number (.ofStep step) where
  shared := by rw [(t.keepShared_eq number step).2.2, List.getElem?_set_self hs]
  inflight e he := hi e (mem_inflight_keepShared.1 he).1
  finished hr := by
    apply List.eq_nil_iff_forall_not_mem.2
    intro e he
    obtain ⟨hmem, hnone⟩ := mem_inflight_keepShared.1 he
    rw [hnone (hi e hmem)] at hr
    cases hr

theorem Shares.settle {n number : Nat} {p : Progress σ ReadResult} (hs : t.Shares number p)
    (h : settle n t (.joined number) = (t', some r)) : t'.inflight = [] := by
  have hres : t.result? (.joined number) = p.result? := by simp [Tree.result?, hs.shared]
  induction n generalizing t p with
  | zero =>
    obtain ⟨rfl, hr⟩ := Prod.mk.inj h
    exact hs.finished (by rw [← hres, hr]; rfl)
  | succ n ih =>
    unfold Tree.settle at h
    cases hr : p.result? with
    | some result =>
      simp only [hres, hr, Prod.mk.injEq] at h
      obtain ⟨rfl, -⟩ := h
      exact hs.finished (by rw [hr]; rfl)
    | none =>
      have hlt : number < t.shared.length := (List.getElem?_eq_some_iff.1 hs.shared).1
      have hs' := shares_keepShared number hlt hs.inflight (p.poll t.world)
      simp only [hres, hr, poll, pollShared, hs.shared] at h
      exact ih hs' h (by simp [Tree.result?, hs'.shared])

/-- What a read leads to when it begins an evaluation that no other read has begun. -/
theorem shares_opened (hi : t.inflight = []) (key : ReadKey) (step : Step σ ReadResult) :
    ((t.opening key step).keepShared t.shared.length step).Shares t.shared.length (.ofStep step) :=
  shares_keepShared _ lt_opening (by simp [opening, hi]) step

theorem settle_alone_of_finishes {s : Step σ ReadResult} (hs : s.Finishes) (t : Tree σ) :
    ∃ n t' r, settle n t (.alone (.ofStep s)) = (t', some r) := by
  induction hs generalizing t with
  | done a w => exact ⟨0, t, a, rfl⟩
  | @wait call next w _ ih =>
    obtain ⟨n, t', r, h⟩ := ih t.world { t with world := (call.poll next t.world).world }
    exact ⟨n + 1, t', r, h⟩

theorem settle_joined_of_finishes {s : Step σ ReadResult} (hf : s.Finishes) {number : Nat}
    (hs : t.shared[number]? = some (.ofStep s)) :
    ∃ n t' r, settle n t (.joined number) = (t', some r) := by
  induction hf generalizing t with
  | done a w =>
    have hr : t.result? (.joined number) = some a := by
      rw [Tree.result?, hs]
      rfl
    exact ⟨0, t, a, by rw [settle, hr]⟩
  | @wait call next w _ ih =>
    have hr : t.result? (.joined number) = none := by
      rw [Tree.result?, hs]
      rfl
    have hlt : number < t.shared.length := (List.getElem?_eq_some_iff.1 hs).1
    have hpolled (step : Step σ ReadResult) :
        (t.keepShared number step).shared[number]? = some (.ofStep step) := by
      rw [(t.keepShared_eq number step).2.2, List.getElem?_set_self hlt]
    obtain ⟨n, t', r, h⟩ := ih t.world (hpolled (call.poll next t.world))
    refine ⟨n + 1, t', r, ?_⟩
    simp only [settle, hr, poll, pollShared, hs]
    exact h

/-- A read of a path text from a place ends with a result after some number of polls. -/
def Gives (t : Tree σ) (base : Path) (text : String) (options : ReadOptions) (r : ReadResult)
    (t' : Tree σ) : Prop :=
  ∃ n, settle n (t.start base text options).1 (t.start base text options).2 = (t', some r)

variable {base : Path} {text : String} {options : ReadOptions}

theorem gives_of_get (h : t.get base text options = (t', some r)) :
    t.Gives base text options r t' :=
  ⟨patience, h⟩

/-- A read that finds no evaluation to join comes to what its steps come to. -/
theorem Gives.ends (h : t.Gives base text options r t') {path : Path}
    (hp : base.resolve text = .ok path)
    (hi : options.fresh = false → t.inflight.lookup (t.readKey path options) = none) :
    ((t.request options).read path options.fresh t.world).Ends r t'.world ∧
      t'.options = t.options := by
  obtain ⟨n, h⟩ := h
  rcases t.start_cases base text options with ⟨e, he, -⟩ |
    ⟨path', hp', ⟨hf, step, hstep, hs⟩ | ⟨hf, ⟨m, hl, -⟩ | ⟨-, step, hstep, hs⟩⟩⟩
  · rw [hp] at he
    cases he
  · obtain rfl : path' = path := Except.ok.inj (hp'.symm.trans hp)
    rw [hs] at h
    obtain ⟨w', he, rfl⟩ := settle_alone h
    rw [hf, ← hstep]
    exact ⟨Progress.ends_ofStep he, rfl⟩
  · obtain rfl : path' = path := Except.ok.inj (hp'.symm.trans hp)
    rw [hi hf] at hl
    cases hl
  · obtain rfl : path' = path := Except.ok.inj (hp'.symm.trans hp)
    obtain ⟨ho, hw, -⟩ := (t.opening (t.readKey path' options) step).keepShared_eq t.shared.length step
    rw [hs] at h
    obtain ⟨he, ho'⟩ := settle_joined (p := .ofStep step) (by rw [shared_opened]; simp) h
    rw [hw] at he
    rw [hf, ← hstep]
    exact ⟨Progress.ends_ofStep he, ho'.trans ho⟩

/-- With no read under way that may be shared, there is none after a read either. -/
theorem Gives.idle (h : t.Gives base text options r t') (hi : t.inflight = []) : t'.inflight = [] := by
  obtain ⟨n, h⟩ := h
  rcases t.start_cases base text options with ⟨e, -, hs⟩ |
    ⟨path, -, ⟨-, step, -, hs⟩ | ⟨-, ⟨m, hl, -⟩ | ⟨-, step, -, hs⟩⟩⟩
  · rw [hs] at h
    obtain ⟨w', -, rfl⟩ := settle_alone h
    exact hi
  · rw [hs] at h
    obtain ⟨w', -, rfl⟩ := settle_alone h
    exact hi
  · rw [hi] at hl
    cases hl
  · rw [hs] at h
    exact (shares_opened hi _ step).settle h

/-- A read fails by its path text, or comes to what its steps come to. -/
theorem Gives.cases (h : t.Gives base text options r t') (hi : t.inflight = []) :
    (∃ e, base.resolve text = .error e ∧ r = .error (.ofPathError e) ∧ t' = t) ∨
      ∃ path, base.resolve text = .ok path ∧
        ((t.request options).read path options.fresh t.world).Ends r t'.world ∧
        t'.inflight = [] ∧ t'.options = t.options := by
  cases hp : base.resolve text with
  | error e =>
    obtain ⟨n, h⟩ := h
    simp only [start, hp] at h
    obtain ⟨w', ⟨rfl, rfl⟩, rfl⟩ := settle_alone h
    exact .inl ⟨e, rfl, rfl, rfl⟩
  | ok path =>
    obtain ⟨he, ho⟩ := h.ends hp fun _ => by rw [hi, List.lookup_nil]
    exact .inr ⟨path, rfl, he, h.idle hi, ho⟩

/-- Every read ends. -/
theorem exists_gives (ha : t.options.Answers) (hi : t.inflight = []) (base : Path) (text : String)
    (options : ReadOptions) : ∃ r t', t.Gives base text options r t' := by
  unfold Gives
  rcases t.start_cases base text options with ⟨e, -, hs⟩ |
    ⟨path, -, ⟨-, step, hstep, hs⟩ | ⟨-, ⟨m, hl, -⟩ | ⟨-, step, hstep, hs⟩⟩⟩
  · exact ⟨_, t, 0, by rw [hs]; rfl⟩
  · have hread : step.Finishes := hstep ▸ (t.request options).finishes_read ha path true t.world
    obtain ⟨n, t', r, h⟩ := settle_alone_of_finishes hread _
    exact ⟨r, t', n, by rw [hs]; exact h⟩
  · rw [hi] at hl
    cases hl
  · have hread : step.Finishes := hstep ▸ (t.request options).finishes_read ha path false t.world
    obtain ⟨n, t', r, h⟩ := settle_joined_of_finishes hread (shares_opened hi _ step).shared
    exact ⟨r, t', n, by rw [hs]; exact h⟩

theorem settle_of_result {n : Nat} {reading : Reading σ} {r : ReadResult}
    (h : t.result? reading = some r) : settle n t reading = (t, some r) := by
  cases n with
  | zero => rw [settle, h]
  | succ n => rw [settle, h]

/-- A read that finds no evaluation to join and ends at once gives its result. -/
theorem get_of_unjoined {path : Path} {w : World σ}
    (hi : options.fresh = false → t.inflight.lookup (t.readKey path options) = none)
    (hp : base.resolve text = .ok path)
    (h : (t.request options).read path options.fresh t.world = .done r w) :
    ∃ t', t.get base text options = (t', some r) ∧ t'.world = w := by
  unfold get start startAt
  simp only [hp]
  cases hf : options.fresh with
  | true =>
    rw [hf] at h
    simp only [if_true, h]
    exact ⟨_, settle_of_result rfl, rfl⟩
  | false =>
    rw [hf] at h
    simp only [Bool.false_eq_true, if_false, hi hf, h]
    exact ⟨_, settle_of_result (by simp [result?, keepShared, Progress.ofStep, Progress.result?]), rfl⟩

theorem get_of_done {path : Path} {w : World σ} (hi : t.inflight = []) (hf : options.fresh = false)
    (hp : base.resolve text = .ok path)
    (h : (t.request options).read path false t.world = .done r w) :
    ∃ t', t.get base text options = (t', some r) ∧ t'.world = w :=
  get_of_unjoined (fun _ => by rw [hi, List.lookup_nil]) hp (hf ▸ h)

end Tree

end LiveDoc
