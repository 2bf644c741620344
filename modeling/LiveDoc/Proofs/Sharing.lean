import LiveDoc.Proofs.Entries
import LiveDoc.Tree

/-! # Shared evaluations

A shared evaluation keeps its number for good, and its key until it ends. Whatever a tree goes
through, the evaluations that can be joined are those that have not ended.
-/

namespace LiveDoc

variable {σ : Type}

namespace Tree

variable {t t' t'' : Tree σ} {n : Nat} {step : Step σ ReadResult}

theorem keepShared_eq (t : Tree σ) (n : Nat) (step : Step σ ReadResult) :
    (t.keepShared n step).options = t.options ∧ (t.keepShared n step).world = step.world ∧
      (t.keepShared n step).shared = t.shared.set n (.ofStep step) := by
  cases step <;> exact ⟨rfl, rfl, rfl⟩

theorem generation_keepShared : (t.keepShared n step).generation = t.generation := by
  cases step <;> rfl

theorem length_keepShared : (t.keepShared n step).shared.length = t.shared.length := by
  rw [(keepShared_eq t n step).2.2, List.length_set]

/-- What can be joined can be joined still, unless it is the evaluation that has ended. -/
theorem mem_inflight_keepShared {e : ReadKey × Nat} : e ∈ (t.keepShared n step).inflight ↔
    e ∈ t.inflight ∧ (e.2 = n → (Progress.ofStep step).result? = none) := by
  cases step with
  | done result w =>
    simp only [keepShared, List.mem_filter, bne_iff_ne, Progress.ofStep, Progress.result?,
      reduceCtorEq, imp_false]
  | wait call next w => exact ⟨fun he => ⟨he, fun _ => rfl⟩, And.left⟩

theorem inflight_keepShared_sublist : (t.keepShared n step).inflight.Sublist t.inflight := by
  cases step with
  | done result w => exact List.filter_sublist
  | wait call next w => exact List.Sublist.refl _

theorem result?_keepShared (hn : n < t.shared.length) :
    (t.keepShared n step).result? (.joined n) = (Progress.ofStep step).result? := by
  obtain ⟨-, -, hs⟩ := keepShared_eq t n step
  rw [result?, hs, List.getElem?_set_self hn, Option.bind_some]

theorem result?_keepShared_of_ne {m : Nat} (hm : m ≠ n) :
    (t.keepShared n step).result? (.joined m) = t.result? (.joined m) := by
  obtain ⟨-, -, hs⟩ := keepShared_eq t n step
  rw [result?, hs, List.getElem?_set_ne (Ne.symm hm), result?]

theorem mem_numbers_keepShared {m : Nat} : m ∈ (t.keepShared n step).inflight.map (·.2) ↔
    m ∈ t.inflight.map (·.2) ∧ (m = n → (Progress.ofStep step).result? = none) := by
  simp only [List.mem_map, mem_inflight_keepShared]
  constructor
  · rintro ⟨e, ⟨he, hu⟩, rfl⟩
    exact ⟨⟨e, he, rfl⟩, hu⟩
  · rintro ⟨⟨e, he, rfl⟩, hu⟩
    exact ⟨e, ⟨he, hu⟩, rfl⟩

/-- What has ended stays as it ended, however often it is polled. -/
theorem result?_poll {p : Progress σ ReadResult} (hp : t.shared[n]? = some p) (w : World σ)
    (r : ReadResult) (hr : t.result? (.joined n) = some r) :
    (Progress.ofStep (p.poll w)).result? = some r := by
  rw [result?, hp, Option.bind_some] at hr
  cases p with
  | finished result => exact hr
  | waiting call next => cases hr

/-- Evaluations only grow in number and only go on, and are joined by their first key until they
end. -/
structure Precedes (t t' : Tree σ) : Prop where
  length_le : t.shared.length ≤ t'.shared.length
  generation_le : t.generation ≤ t'.generation
  ended : ∀ n r, t.result? (.joined n) = some r → t'.result? (.joined n) = some r
  joinable : ∀ e ∈ t.inflight, t'.result? (.joined e.2) = none → e ∈ t'.inflight
  old : ∀ e ∈ t'.inflight, e.2 < t.shared.length → e ∈ t.inflight

namespace Precedes

theorem of_eq (hs : t'.shared = t.shared) (hi : t'.inflight = t.inflight)
    (hg : t.generation ≤ t'.generation) : t.Precedes t' where
  length_le := Nat.le_of_eq (congrArg List.length hs.symm)
  generation_le := hg
  ended n r hr := by rwa [result?, hs]
  joinable e he _ := hi ▸ he
  old e he _ := hi ▸ he

theorem refl (t : Tree σ) : t.Precedes t :=
  .of_eq rfl rfl (Nat.le_refl _)

theorem trans (h : t.Precedes t') (h' : t'.Precedes t'') : t.Precedes t'' where
  length_le := Nat.le_trans h.length_le h'.length_le
  generation_le := Nat.le_trans h.generation_le h'.generation_le
  ended n r hr := h'.ended n r (h.ended n r hr)
  joinable e he hr := by
    refine h'.joinable e (h.joinable e he ?_) hr
    cases hr' : t'.result? (.joined e.2) with
    | none => rfl
    | some r => rw [h'.ended _ r hr'] at hr; cases hr
  old e he hn := h.old e (h'.old e he (Nat.lt_of_lt_of_le hn h.length_le)) hn

/-- A step is put in the place of an evaluation that has not ended otherwise. -/
theorem keepShared (hn : n < t.shared.length)
    (hr : ∀ r, t.result? (.joined n) = some r → (Progress.ofStep step).result? = some r) :
    t.Precedes (t.keepShared n step) where
  length_le := Nat.le_of_eq length_keepShared.symm
  generation_le := Nat.le_of_eq generation_keepShared.symm
  ended m r hm := by
    by_cases hmn : m = n
    · subst hmn
      rw [result?_keepShared hn, hr r hm]
    · rwa [result?_keepShared_of_ne hmn]
  joinable e he hu := by
    refine mem_inflight_keepShared.2 ⟨he, ?_⟩
    rintro rfl
    rwa [result?_keepShared hn] at hu
  old e he _ := (mem_inflight_keepShared.1 he).1

theorem pollShared (t : Tree σ) (n : Nat) : t.Precedes (t.pollShared n) := by
  unfold Tree.pollShared
  cases hp : t.shared[n]? with
  | none => exact .refl t
  | some p => exact .keepShared (List.getElem?_eq_some_iff.1 hp).1 (result?_poll hp t.world)

end Precedes

/-! ## Beginning a read -/

/-- The tree in which a new shared evaluation stands at its number. -/
def opening (t : Tree σ) (key : ReadKey) (step : Step σ ReadResult) : Tree σ :=
  { t with
    shared := t.shared ++ [Progress.ofStep step]
    inflight := t.inflight ++ [(key, t.shared.length)] }

/-- A read names no path, is on its own, joins an evaluation that has its key, or begins one. -/
theorem start_cases (t : Tree σ) (base : Path) (text : String) (asked : ReadOptions) :
    (∃ e, base.resolve text = .error e ∧
      t.start base text asked = (t, .alone (.finished (.error (.ofPathError e))))) ∨
    ∃ path, base.resolve text = .ok path ∧
      (asked.fresh = true ∧ (∃ step, step = (t.request asked).read path true t.world ∧
        t.start base text asked = ({ t with world := step.world }, .alone (.ofStep step))) ∨
      asked.fresh = false ∧
        ((∃ n, t.inflight.lookup (t.readKey path asked) = some n ∧
          t.start base text asked = (t.pollShared n, .joined n)) ∨
        t.inflight.lookup (t.readKey path asked) = none ∧
          ∃ step, step = (t.request asked).read path false t.world ∧ t.start base text asked =
            ((t.opening (t.readKey path asked) step).keepShared t.shared.length step,
              .joined t.shared.length))) := by
  unfold start
  cases base.resolve text with
  | error e => exact .inl ⟨e, rfl, rfl⟩
  | ok path =>
    refine .inr ⟨path, rfl, ?_⟩
    simp only [startAt]
    cases asked.fresh with
    | true => exact .inl ⟨rfl, _, rfl, rfl⟩
    | false =>
      refine .inr ⟨rfl, ?_⟩
      simp only [Bool.false_eq_true, if_false]
      cases hl : t.inflight.lookup (t.readKey path asked) with
      | some n => exact .inl ⟨n, rfl, rfl⟩
      | none => exact .inr ⟨rfl, _, rfl, rfl⟩

theorem length_opening {key : ReadKey} :
    (t.opening key step).shared.length = t.shared.length + 1 := by
  simp [opening]

theorem lt_opening {key : ReadKey} : t.shared.length < (t.opening key step).shared.length := by
  rw [length_opening]
  exact Nat.lt_succ_self _

theorem shared_opened {key : ReadKey} :
    ((t.opening key step).keepShared t.shared.length step).shared =
      t.shared ++ [Progress.ofStep step] := by
  rw [(keepShared_eq _ _ step).2.2, opening, List.set_append_right _ _ (Nat.le_refl _), Nat.sub_self]
  rfl

theorem result?_opening {key : ReadKey} {m : Nat} (hm : m ≠ t.shared.length) :
    (t.opening key step).result? (.joined m) = t.result? (.joined m) := by
  rw [result?, opening, getElem?_append_singleton_of_ne hm, result?]

theorem result?_opening_self {key : ReadKey} :
    (t.opening key step).result? (.joined t.shared.length) = (Progress.ofStep step).result? := by
  simp [result?, opening]

theorem result?_eq_none_of_le (hn : t.shared.length ≤ n) : t.result? (.joined n) = none := by
  rw [result?, List.getElem?_eq_none hn, Option.bind_none]

theorem precedes_opening {key : ReadKey} : t.Precedes (t.opening key step) where
  length_le := Nat.le_of_lt lt_opening
  generation_le := Nat.le_refl _
  ended n r hr := by
    refine (result?_opening ?_).trans hr
    rintro rfl
    rw [result?_eq_none_of_le (Nat.le_refl _)] at hr
    cases hr
  joinable e he _ := List.mem_append_left _ he
  old e he hn := by
    rcases List.mem_append.1 he with he | he
    · exact he
    · rw [List.mem_singleton.1 he] at hn
      exact absurd hn (Nat.lt_irrefl _)

theorem precedes_opened {key : ReadKey} :
    t.Precedes ((t.opening key step).keepShared t.shared.length step) :=
  precedes_opening.trans (.keepShared lt_opening fun r hr => by rwa [result?_opening_self] at hr)

theorem precedes_start (t : Tree σ) (base : Path) (text : String) (asked : ReadOptions) :
    t.Precedes (t.start base text asked).1 := by
  rcases t.start_cases base text asked with
    ⟨e, -, h⟩ | ⟨path, -, ⟨-, step, -, h⟩ | ⟨-, ⟨n, -, h⟩ | ⟨-, step, -, h⟩⟩⟩ <;> rw [h]
  · exact .refl t
  · exact .of_eq rfl rfl (Nat.le_refl _)
  · exact .pollShared t n
  · exact precedes_opened

theorem precedes_poll (t : Tree σ) (reading : Reading σ) : t.Precedes (t.poll reading).1 := by
  cases reading with
  | alone p => exact .of_eq rfl rfl (Nat.le_refl _)
  | joined n => exact .pollShared t n

theorem length_pollShared (t : Tree σ) (n : Nat) :
    (t.pollShared n).shared.length = t.shared.length := by
  unfold pollShared
  cases t.shared[n]? with
  | none => rfl
  | some p => exact length_keepShared

/-- Going on with one shared evaluation leaves the others as they are. -/
theorem pollShared_frame (t : Tree σ) (n : Nat) : (t.pollShared n).options = t.options ∧
    (∀ m ≠ n, (t.pollShared n).shared[m]? = t.shared[m]?) ∧
    (∀ e ∈ (t.pollShared n).inflight, e ∈ t.inflight) ∧
    ∀ e ∈ t.inflight, e.2 ≠ n → e ∈ (t.pollShared n).inflight := by
  unfold pollShared
  cases t.shared[n]? with
  | none => exact ⟨rfl, fun _ _ => rfl, fun _ => id, fun _ he _ => he⟩
  | some p =>
    obtain ⟨ho, -, hs⟩ := t.keepShared_eq n (p.poll t.world)
    refine ⟨ho, fun m hm => ?_, fun e he => (mem_inflight_keepShared.1 he).1, fun e he hne => ?_⟩
    · simp only [hs, List.getElem?_set_ne (Ne.symm hm)]
    · exact mem_inflight_keepShared.2 ⟨he, fun heq => absurd heq hne⟩

theorem generation_pollShared (t : Tree σ) (n : Nat) :
    (t.pollShared n).generation = t.generation := by
  unfold pollShared
  cases t.shared[n]? with
  | none => rfl
  | some p => exact generation_keepShared

theorem generation_start (t : Tree σ) (base : Path) (text : String) (asked : ReadOptions) :
    (t.start base text asked).1.generation = t.generation := by
  rcases t.start_cases base text asked with
    ⟨e, -, h⟩ | ⟨path, -, ⟨-, step, -, h⟩ | ⟨-, ⟨n, -, h⟩ | ⟨-, step, -, h⟩⟩⟩ <;> rw [h]
  · exact t.generation_pollShared n
  · exact generation_keepShared

theorem generation_poll (t : Tree σ) (reading : Reading σ) :
    (t.poll reading).1.generation = t.generation := by
  cases reading with
  | alone p => rfl
  | joined n => exact t.generation_pollShared n

/-! ## What can be joined -/

/-- No key and no number is in flight twice, no key is of a generation to come, and what is in
flight are the evaluations that have not ended. -/
structure Orderly (t : Tree σ) : Prop where
  keys : (t.inflight.map (·.1)).Nodup
  numbers : (t.inflight.map (·.2)).Nodup
  generation_le : ∀ e ∈ t.inflight, e.1.generation ≤ t.generation
  unended : ∀ n, n ∈ t.inflight.map (·.2) ↔ n < t.shared.length ∧ t.result? (.joined n) = none

namespace Orderly

theorem of_eq (h : t.Orderly) (hs : t'.shared = t.shared) (hi : t'.inflight = t.inflight)
    (hg : t.generation ≤ t'.generation) : t'.Orderly where
  keys := hi ▸ h.keys
  numbers := hi ▸ h.numbers
  generation_le e he := Nat.le_trans (h.generation_le e (hi ▸ he)) hg
  unended n := by rw [hi, h.unended, hs, result?, result?, hs]

theorem keepShared (h : t.Orderly) (hn : n < t.shared.length)
    (hr : ∀ r, t.result? (.joined n) = some r → (Progress.ofStep step).result? = some r) :
    (t.keepShared n step).Orderly where
  keys := h.keys.sublist (inflight_keepShared_sublist.map _)
  numbers := h.numbers.sublist (inflight_keepShared_sublist.map _)
  generation_le e he := by
    rw [generation_keepShared]
    exact h.generation_le e (mem_inflight_keepShared.1 he).1
  unended m := by
    rw [mem_numbers_keepShared, h.unended, length_keepShared, and_assoc]
    refine and_congr_right fun _ => ?_
    by_cases hm : m = n
    · subst hm
      rw [result?_keepShared hn]
      refine ⟨fun hu => hu.2 rfl, fun hu => ⟨?_, fun _ => hu⟩⟩
      cases hres : t.result? (.joined m) with
      | none => rfl
      | some r => rw [hr r hres] at hu; cases hu
    · simp only [result?_keepShared_of_ne hm, hm, false_implies, and_true]

theorem pollShared (h : t.Orderly) (n : Nat) : (t.pollShared n).Orderly := by
  unfold Tree.pollShared
  cases hp : t.shared[n]? with
  | none => exact h
  | some p => exact h.keepShared (List.getElem?_eq_some_iff.1 hp).1 (result?_poll hp t.world)

theorem opened (h : t.Orderly) {key : ReadKey} (hl : t.inflight.lookup key = none)
    (hg : key.generation = t.generation) :
    ((t.opening key step).keepShared t.shared.length step).Orderly where
  keys := by
    refine List.Nodup.sublist (inflight_keepShared_sublist.map _) ?_
    rw [opening, List.map_append, List.nodup_append_comm, List.map_singleton, List.singleton_append,
      List.nodup_cons]
    exact ⟨Assoc.lookup_eq_none_iff.1 hl, h.keys⟩
  numbers := by
    refine List.Nodup.sublist (inflight_keepShared_sublist.map _) ?_
    rw [opening, List.map_append, List.nodup_append_comm, List.map_singleton, List.singleton_append,
      List.nodup_cons]
    exact ⟨fun hm => Nat.lt_irrefl _ ((h.unended _).1 hm).1, h.numbers⟩
  generation_le e he := by
    rw [generation_keepShared]
    rcases List.mem_append.1 (mem_inflight_keepShared.1 he).1 with he | he
    · exact h.generation_le e he
    · rw [List.mem_singleton.1 he]
      exact Nat.le_of_eq hg
  unended m := by
    have hnumbers : m ∈ (t.opening key step).inflight.map (·.2) ↔
        m ∈ t.inflight.map (·.2) ∨ m = t.shared.length := by simp [opening]
    rw [mem_numbers_keepShared, hnumbers, length_keepShared, length_opening, h.unended]
    by_cases hm : m = t.shared.length
    · subst hm
      simp [result?_keepShared lt_opening]
    · have hlt : m < t.shared.length + 1 ↔ m < t.shared.length := by omega
      simp [result?_keepShared_of_ne hm, result?_opening hm, hm, hlt]

theorem start (h : t.Orderly) (base : Path) (text : String) (asked : ReadOptions) :
    (t.start base text asked).1.Orderly := by
  rcases t.start_cases base text asked with
    ⟨e, -, hs⟩ | ⟨path, -, ⟨-, step, -, hs⟩ | ⟨-, ⟨n, -, hs⟩ | ⟨hl, step, -, hs⟩⟩⟩ <;> rw [hs]
  · exact h
  · exact h.of_eq rfl rfl (Nat.le_refl _)
  · exact h.pollShared n
  · exact h.opened hl rfl

theorem poll (h : t.Orderly) (reading : Reading σ) : (t.poll reading).1.Orderly := by
  cases reading with
  | alone p => exact h.of_eq rfl rfl (Nat.le_refl _)
  | joined n => exact h.pollShared n

theorem ofDocument (document : Value) (options : Options σ) (host : σ) :
    (Tree.ofDocument document options host).Orderly :=
  ⟨.nil, .nil, nofun, fun n => by simp [Tree.ofDocument]⟩

/-- An evaluation that is in flight is found under its key. -/
theorem lookup_eq (h : t.Orderly) {e : ReadKey × Nat} (he : e ∈ t.inflight) :
    t.inflight.lookup e.1 = some e.2 :=
  Assoc.lookup_of_mem h.keys he

end Orderly

end Tree

end LiveDoc
