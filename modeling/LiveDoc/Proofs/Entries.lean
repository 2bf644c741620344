import LiveDoc.Assoc
import Mathlib.Data.List.Forall2
import Mathlib.Data.List.Nodup

/-! # Entries of association lists

How replacing, erasing and filtering act on the keys of a list of entries and on look-up.
-/

namespace LiveDoc

/-- Whatever is added behind a list is met at one index only. -/
theorem getElem?_append_singleton_of_ne {α : Type} {items : List α} {value : α} {j : Nat}
    (h : j ≠ items.length) : (items ++ [value])[j]? = items[j]? := by
  by_cases hlt : j < items.length
  · rw [List.getElem?_append_left hlt]
  · have hle : items.length < j := by omega
    rw [List.getElem?_eq_none (by simp; omega), List.getElem?_eq_none (by omega)]

/-- A list that is sorted by a comparison is in its order. -/
theorem pairwise_mergeSort_isLE {α : Type} {cmp : α → α → Ordering} [Std.TransCmp cmp] (l : List α) :
    (l.mergeSort fun a b => (cmp a b).isLE).Pairwise fun a b => (cmp a b).isLE := by
  apply List.pairwise_mergeSort
  · intro a b c
    exact Std.TransCmp.isLE_trans
  · intro a b
    have hswap : cmp b a = (cmp a b).swap := Std.OrientedCmp.eq_swap
    rw [hswap]
    cases cmp a b <;> rfl

/-- Nothing stands twice once repetitions are erased. -/
theorem nodup_eraseDups {α : Type} [DecidableEq α] : (l : List α) → l.eraseDups.Nodup
  | [] => List.nodup_nil
  | a :: rest => by
    rw [List.eraseDups_cons, List.nodup_cons, List.mem_eraseDups]
    constructor
    · simp
    · exact nodup_eraseDups (rest.filter fun b => !b == a)
  termination_by l => l.length
  decreasing_by exact Nat.lt_succ_of_le (List.length_filter_le _ _)

theorem eraseDups_sublist {α : Type} [DecidableEq α] : (l : List α) → l.eraseDups.Sublist l
  | [] => .slnil
  | a :: rest => by
    rw [List.eraseDups_cons]
    exact ((eraseDups_sublist (rest.filter fun b => !b == a)).trans List.filter_sublist).cons_cons a
  termination_by l => l.length
  decreasing_by exact Nat.lt_succ_of_le (List.length_filter_le _ _)

theorem eraseDups_of_nodup {α : Type} [DecidableEq α] {l : List α} (h : l.Nodup) : l.eraseDups = l := by
  induction l with
  | nil => rfl
  | cons a rest ih =>
    obtain ⟨ha, hrest⟩ := List.nodup_cons.1 h
    have hfilter : rest.filter (fun b => !b == a) = rest := by
      apply List.filter_eq_self.2
      intro b hb
      have hne : b ≠ a := fun he => ha (he ▸ hb)
      simpa using hne
    rw [List.eraseDups_cons, hfilter, ih hrest]

/-- Repetitions can be erased before or after filtering. -/
theorem eraseDups_filter {α : Type} [DecidableEq α] (p : α → Bool) : (l : List α) →
    (l.filter p).eraseDups = l.eraseDups.filter p
  | [] => rfl
  | a :: rest => by
    have hcomm : (rest.filter p).filter (fun b => !b == a) = (rest.filter fun b => !b == a).filter p :=
      List.filter_comm _ _ _
    have ih := eraseDups_filter p (rest.filter fun b => !b == a)
    rw [List.eraseDups_cons]
    cases hp : p a with
    | true => rw [List.filter_cons_of_pos hp, List.filter_cons_of_pos hp, List.eraseDups_cons, hcomm, ih]
    | false =>
      have hne : ¬ p a = true := by simp [hp]
      have hother : (rest.filter p).filter (fun b => !b == a) = rest.filter p := by
        apply List.filter_eq_self.2
        intro b hb
        have hba : b ≠ a := by
          rintro rfl
          exact hne (List.mem_filter.1 hb).2
        simpa using hba
      rw [List.filter_cons_of_neg hne, List.filter_cons_of_neg hne, ← ih, ← hcomm, hother]
  termination_by l => l.length
  decreasing_by exact Nat.lt_succ_of_le (List.length_filter_le _ _)

theorem exists_of_forall₂ {α β : Type} {P : α → β → Prop} {as : List α} {bs : List β}
    (h : List.Forall₂ P as bs) {i : Nat} {a : α} (ha : as[i]? = some a) :
    ∃ b, bs[i]? = some b ∧ P a b := by
  induction h generalizing i with
  | nil => cases ha
  | @cons a' b as bs hab _ ih =>
    cases i with
    | zero =>
      cases ha
      exact ⟨b, rfl, hab⟩
    | succ i => exact ih ha

namespace Assoc

variable {κ ν : Type} [DecidableEq κ]

theorem mem_of_lookup {k : κ} {v : ν} {es : List (κ × ν)} (h : es.lookup k = some v) :
    (k, v) ∈ es := by
  obtain ⟨front, back, rfl, -⟩ := List.lookup_eq_some_iff.1 h
  exact List.mem_append_right _ List.mem_cons_self

/-- Where no key stands twice, whatever stands at a key is found. -/
theorem lookup_of_mem {k : κ} {v : ν} {es : List (κ × ν)} (h : (es.map (·.1)).Nodup)
    (he : (k, v) ∈ es) : es.lookup k = some v := by
  induction es with
  | nil => cases he
  | cons e rest ih =>
    obtain ⟨k', v'⟩ := e
    rw [List.map_cons, List.nodup_cons] at h
    rcases List.mem_cons.1 he with he | he
    · cases he
      exact List.lookup_cons_self
    · have hne : k ≠ k' := fun hk => h.1 (List.mem_map.2 ⟨_, he, hk⟩)
      rw [List.lookup_cons, beq_eq_false_iff_ne.2 hne]
      exact ih h.2 he

theorem isSome_lookup_iff {k : κ} {es : List (κ × ν)} :
    (es.lookup k).isSome ↔ k ∈ es.map (·.1) := by
  rw [List.lookup_isSome_iff]
  simp only [List.mem_map]
  exact ⟨fun ⟨e, he, hk⟩ => ⟨e, he, (eq_of_beq hk).symm⟩, fun ⟨e, he, hk⟩ => ⟨e, he, by simp [hk]⟩⟩

theorem lookup_eq_none_iff {k : κ} {es : List (κ × ν)} :
    es.lookup k = none ↔ k ∉ es.map (·.1) := by
  rw [← isSome_lookup_iff, Bool.not_eq_true, Option.isSome_eq_false_iff, Option.isNone_iff_eq_none]

theorem mem_of_mem_put {key : κ} {value : ν} {es : List (κ × ν)} {e : κ × ν}
    (h : e ∈ put key value es) : e = (key, value) ∨ e ∈ es := by
  induction es with
  | nil => exact .inl (List.mem_singleton.1 h)
  | cons e' rest ih =>
    obtain ⟨k, v⟩ := e'
    by_cases hk : k = key
    · subst hk
      rw [put, if_pos rfl] at h
      exact (List.mem_cons.1 h).imp id (List.mem_cons_of_mem _)
    · rw [put, if_neg hk] at h
      rcases List.mem_cons.1 h with rfl | h
      · exact .inr List.mem_cons_self
      · exact (ih h).imp id (List.mem_cons_of_mem _)

theorem put_of_lookup {key : κ} {value : ν} {es : List (κ × ν)}
    (h : es.lookup key = some value) : put key value es = es := by
  induction es with
  | nil => simp at h
  | cons e rest ih =>
    obtain ⟨k, v⟩ := e
    by_cases hk : k = key
    · subst hk
      simp only [List.lookup_cons_self, Option.some.injEq] at h
      rw [put, if_pos rfl, h]
    · rw [List.lookup_cons, beq_eq_false_iff_ne.2 (Ne.symm hk)] at h
      rw [put, if_neg hk, ih h]

/-- Putting a value changes a list unless the key has that value already. -/
theorem put_eq_self_iff {key : κ} {value : ν} {es : List (κ × ν)} :
    put key value es = es ↔ es.lookup key = some value := by
  refine ⟨fun h => ?_, put_of_lookup⟩
  have hl := lookup_put key key value es
  rwa [h, if_pos rfl] at hl

theorem put_put (key : κ) (value value' : ν) (es : List (κ × ν)) :
    put key value' (put key value es) = put key value' es := by
  induction es with
  | nil => simp [put]
  | cons e rest ih =>
    obtain ⟨k, v⟩ := e
    by_cases hk : k = key <;> simp [put, hk, ih]

theorem keys_put (key : κ) (value : ν) (es : List (κ × ν)) :
    (put key value es).map (·.1) =
      if key ∈ es.map (·.1) then es.map (·.1) else es.map (·.1) ++ [key] := by
  induction es with
  | nil => simp [put]
  | cons e rest ih =>
    obtain ⟨k, v⟩ := e
    by_cases h : k = key
    · simp [put, h]
    · simp only [put, if_neg h, List.map_cons, ih, List.mem_cons, Ne.symm h, false_or]
      split <;> rfl

theorem nodup_put {key : κ} {value : ν} {es : List (κ × ν)} (h : (es.map (·.1)).Nodup) :
    ((put key value es).map (·.1)).Nodup := by
  rw [keys_put]
  split
  · exact h
  · next hk => exact List.nodup_append.2 ⟨h, by simp, by rintro a ha b hb rfl; simp_all⟩

/-- Filtering by what stands at a key filters what is looked up. -/
theorem lookup_filter {p : κ × ν → Bool} {es : List (κ × ν)} (h : (es.map (·.1)).Nodup) (k : κ) :
    (es.filter p).lookup k = (es.lookup k).filter fun v => p (k, v) := by
  induction es with
  | nil => rfl
  | cons e rest ih =>
    obtain ⟨k', v⟩ := e
    rw [List.map_cons, List.nodup_cons] at h
    by_cases hk : k = k'
    · subst hk
      cases hp : p (k, v)
      · have hr : rest.lookup k = none := lookup_eq_none_iff.2 h.1
        simp [hp, ih h.2, hr, Option.filter]
      · simp [hp, Option.filter]
    · have hl : ((k', v) :: rest).lookup k = rest.lookup k := by
        simp [List.lookup_cons, beq_eq_false_iff_ne.2 hk]
      rw [hl, ← ih h.2, List.filter_cons]
      split
      · simp [List.lookup_cons, beq_eq_false_iff_ne.2 hk]
      · rfl

/-- Filtering by the key needs no distinct keys. -/
theorem lookup_filter_key (p : κ → Bool) (es : List (κ × ν)) (k : κ) :
    (es.filter fun e => p e.1).lookup k = if p k then es.lookup k else none := by
  induction es with
  | nil => simp
  | cons e rest ih =>
    obtain ⟨k', v⟩ := e
    by_cases hk : k = k'
    · subst hk
      cases hp : p k <;> simp [hp, ih]
    · have hb := beq_eq_false_iff_ne.2 hk
      cases hp : p k' <;> simp [hp, List.lookup_cons, hb, ih]

theorem lookup_erase_of_ne {key k : κ} (h : k ≠ key) (es : List (κ × ν)) :
    (erase key es).lookup k = es.lookup k := by
  induction es with
  | nil => rfl
  | cons e rest ih =>
    obtain ⟨k', v⟩ := e
    by_cases hk : k' = key
    · subst hk
      simp [erase, List.lookup_cons, beq_eq_false_iff_ne.2 h]
    · by_cases hk' : k = k'
      · subst hk'
        simp [erase, hk]
      · simp [erase, hk, List.lookup_cons, beq_eq_false_iff_ne.2 hk', ih]

theorem mem_of_mem_erase {key : κ} {es : List (κ × ν)} {e : κ × ν} (h : e ∈ erase key es) :
    e ∈ es := by
  induction es with
  | nil => cases h
  | cons d rest ih =>
    rw [erase] at h
    split at h
    · exact List.mem_cons_of_mem _ h
    · rcases List.mem_cons.1 h with rfl | h
      · exact List.mem_cons_self
      · exact List.mem_cons_of_mem _ (ih h)

theorem erase_of_not_mem {key : κ} {es : List (κ × ν)} (h : key ∉ es.map (·.1)) : erase key es = es := by
  induction es with
  | nil => rfl
  | cons e rest ih =>
    obtain ⟨k, v⟩ := e
    rw [List.map_cons, List.mem_cons, not_or] at h
    rw [erase, if_neg (Ne.symm h.1), ih h.2]

/-- Erasing a key that a filter leaves out is not seen through the filter. -/
theorem filter_keys_erase {p : κ → Bool} {key : κ} (h : p key = false) (es : List (κ × ν)) :
    ((erase key es).map (·.1)).filter p = (es.map (·.1)).filter p := by
  induction es with
  | nil => rfl
  | cons e rest ih =>
    obtain ⟨k, v⟩ := e
    by_cases hk : k = key
    · subst hk
      simp [erase, h]
    · simp only [erase, if_neg hk, List.map_cons, List.filter_cons, ih]

theorem filter_keys_put {p : κ → Bool} {key : κ} (h : p key = false) (value : ν)
    (es : List (κ × ν)) :
    ((put key value es).map (·.1)).filter p = (es.map (·.1)).filter p := by
  rw [keys_put]
  split
  · rfl
  · simp [h]

theorem lookup_foldl_put {es acc : List (κ × ν)} (h : (es.map (·.1)).Nodup) (k : κ) :
    (es.foldl (fun es e => put e.1 e.2 es) acc).lookup k = (es.lookup k).or (acc.lookup k) := by
  induction es generalizing acc with
  | nil => rfl
  | cons e rest ih =>
    obtain ⟨key, value⟩ := e
    obtain ⟨hnew, hrest⟩ := List.nodup_cons.1 h
    rw [List.foldl_cons, ih hrest, lookup_put]
    by_cases hk : k = key
    · subst hk
      rw [lookup_eq_none_iff.2 hnew, List.lookup_cons_self, if_pos rfl, Option.none_or, Option.some_or]
    · rw [if_neg hk, List.lookup_cons, beq_eq_false_iff_ne.2 hk]

/-- Entries with different keys are found again. -/
theorem lookup_ofList {es : List (κ × ν)} (h : (es.map (·.1)).Nodup) (k : κ) :
    (ofList es).lookup k = es.lookup k := by
  rw [ofList, lookup_foldl_put h]
  exact Option.or_none

theorem put_of_not_mem {key : κ} {value : ν} {es : List (κ × ν)} (h : key ∉ es.map (·.1)) :
    put key value es = es ++ [(key, value)] := by
  induction es with
  | nil => rfl
  | cons e rest ih =>
    obtain ⟨k, v⟩ := e
    rw [List.map_cons, List.mem_cons, not_or] at h
    rw [put, if_neg (Ne.symm h.1), ih h.2, List.cons_append]

theorem foldl_put_of_nodup {es front : List (κ × ν)} (h : ((front ++ es).map (·.1)).Nodup) :
    es.foldl (fun es e => put e.1 e.2 es) front = front ++ es := by
  induction es generalizing front with
  | nil => rw [List.foldl_nil, List.append_nil]
  | cons e rest ih =>
    have hnew : e.1 ∉ front.map (·.1) := by
      rw [List.map_append, List.nodup_append] at h
      exact fun hm => h.2.2 e.1 hm e.1 (by simp) rfl
    rw [List.append_cons] at h ⊢
    rw [List.foldl_cons, put_of_not_mem hnew, ih h]

/-- Entries with different keys keep their order. -/
theorem ofList_of_nodup {es : List (κ × ν)} (h : (es.map (·.1)).Nodup) : ofList es = es := by
  have hall : (([] ++ es).map Prod.fst).Nodup := h
  exact foldl_put_of_nodup hall

end Assoc

end LiveDoc
