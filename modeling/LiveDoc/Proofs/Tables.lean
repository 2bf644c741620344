import LiveDoc.Table
import LiveDoc.Proofs.Entries

/-! # Look-up in tables

A table is told by what its keys have. A key that is inserted has its new value, and where two tables
are merged the second answers for the keys that it has.
-/

namespace LiveDoc

namespace Assoc

variable {κ ν : Type} [DecidableEq κ] {es : List (κ × ν)} {k : κ} {v : ν}

theorem lookup_cons (k d : κ) (w : ν) (es : List (κ × ν)) :
    ((d, w) :: es).lookup k = if k = d then some w else es.lookup k := by
  by_cases h : k = d
  · simp [h]
  · rw [List.lookup_cons, beq_eq_false_iff_ne.2 h, if_neg h]

theorem lookup_eq_some_iff (hn : (es.map (·.1)).Nodup) : es.lookup k = some v ↔ (k, v) ∈ es := by
  constructor
  · exact mem_of_lookup
  · exact lookup_of_mem hn

/-- Where no key repeats, the order of entries does not matter. -/
theorem lookup_reverse (hn : (es.map (·.1)).Nodup) : es.reverse.lookup k = es.lookup k := by
  have hr : (es.reverse.map (·.1)).Nodup := by
    rw [List.map_reverse, List.nodup_reverse]
    exact hn
  apply Option.ext
  intro v
  rw [lookup_eq_some_iff hr, lookup_eq_some_iff hn, List.mem_reverse]

end Assoc

namespace Table

variable {κ ν : Type} [Ord κ] {k : κ} {v : ν} {t u : Table κ ν}

/-- The table with one entry. -/
def single (k : κ) (v : ν) : Table κ ν :=
  ⟨[(k, v)], List.pairwise_singleton _ _⟩

theorem single_inj {k k' : κ} {v v' : ν} : single k v = single k' v' ↔ k = k' ∧ v = v' := by
  simp [single]

theorem get?_empty (k : κ) : (empty : Table κ ν).get? k = none :=
  rfl

variable [Std.LawfulEqOrd κ]

/-- No key stands twice in a table. -/
theorem nodup_keys (t : Table κ ν) : (t.entries.map (·.1)).Nodup := by
  rw [List.Nodup, List.pairwise_map]
  apply t.ascending.imp
  intro a b hlt heq
  rw [heq, Std.compare_self] at hlt
  cases hlt

variable [DecidableEq κ]

theorem get?_eq_lookup (t : Table κ ν) (k : κ) : t.get? k = t.entries.lookup k := by
  unfold get?
  induction t.entries with
  | nil => rfl
  | cons e rest ih =>
    obtain ⟨d, w⟩ := e
    rw [List.find?_cons, Assoc.lookup_cons]
    by_cases h : k = d
    · simp [h]
    · have hne : (compare d k == Ordering.eq) = false := by
        simpa using Ne.symm h
      rw [hne, if_neg h, ← ih]

theorem get?_eq_some_iff : t.get? k = some v ↔ (k, v) ∈ t.entries := by
  rw [get?_eq_lookup, Assoc.lookup_eq_some_iff t.nodup_keys]

theorem lookup_insertEntry (k k' : κ) (v : ν) (es : List (κ × ν)) :
    (insertEntry k v es).lookup k' = if k' = k then some v else es.lookup k' := by
  induction es with
  | nil => rw [insertEntry, Assoc.lookup_cons]
  | cons e rest ih =>
    obtain ⟨d, w⟩ := e
    rw [insertEntry]
    split
    · rw [Assoc.lookup_cons]
    · next hc =>
      obtain rfl : k = d := Std.LawfulEqOrd.eq_of_compare hc
      rw [Assoc.lookup_cons, Assoc.lookup_cons]
      by_cases h : k' = k <;> simp [h]
    · next hc =>
      have hne : k ≠ d := by
        rintro rfl
        simp at hc
      rw [Assoc.lookup_cons, Assoc.lookup_cons, ih]
      by_cases h : k' = d
      · simp [h, Ne.symm hne]
      · simp [h]

variable [Std.TransOrd κ]

/-- Tables in which all keys have the same values are equal. -/
theorem ext_get? (h : ∀ k, t.get? k = u.get? k) : t = u := by
  have hperm : t.entries.Perm u.entries := by
    apply (List.perm_ext_iff_of_nodup t.nodup_keys.of_map u.nodup_keys.of_map).2
    rintro ⟨k, v⟩
    rw [← get?_eq_some_iff, ← get?_eq_some_iff, h]
  apply eq_of_entries
  apply hperm.eq_of_pairwise _ t.ascending u.ascending
  intro a b _ _ hab hba
  rw [Std.OrientedCmp.gt_of_lt hab] at hba
  cases hba

theorem get?_insert (t : Table κ ν) (k k' : κ) (v : ν) :
    (t.insert k v).get? k' = if k' = k then some v else t.get? k' := by
  rw [get?_eq_lookup, get?_eq_lookup, insert, lookup_insertEntry]

/-- Of entries with one key the last is there once they are inserted. -/
theorem get?_insertAll (t : Table κ ν) (es : List (κ × ν)) (k : κ) :
    (t.insertAll es).get? k = (es.reverse.lookup k).or (t.get? k) := by
  induction es generalizing t with
  | nil => rfl
  | cons e rest ih =>
    obtain ⟨d, w⟩ := e
    have hstep : t.insertAll ((d, w) :: rest) = (t.insert d w).insertAll rest := rfl
    rw [hstep, ih, get?_insert, List.reverse_cons, List.lookup_append, Assoc.lookup_cons,
      Option.or_assoc]
    by_cases h : k = d <;> simp [h]

theorem get?_ofList (es : List (κ × ν)) (k : κ) : (ofList es).get? k = es.reverse.lookup k := by
  rw [ofList, get?_insertAll, get?_empty, Option.or_none]

theorem get?_merge (t u : Table κ ν) (k : κ) : (t.merge u).get? k = (u.get? k).or (t.get? k) := by
  rw [merge, get?_insertAll, Assoc.lookup_reverse u.nodup_keys, get?_eq_lookup u]

/-- Of tables that are merged in turn the last that has a key answers for it. -/
theorem get?_foldl_merge (t : Table κ ν) (us : List (Table κ ν)) (k : κ) :
    (us.foldl (·.merge ·) t).get? k = (us.reverse.findSome? (·.get? k)).or (t.get? k) := by
  induction us generalizing t with
  | nil => rfl
  | cons u us ih =>
    rw [List.foldl_cons, ih, get?_merge, List.reverse_cons, List.findSome?_append, Option.or_assoc]
    simp

end Table

end LiveDoc
