import LiveDoc.Text.Distance
import Mathlib.Order.Bounds.Basic
import Mathlib.Order.Lattice.Nat

/-! # Edits and the edit distance

The distance of two texts is the least number of edits that turn one into the other. The rows in which it is
computed hold the distances of prefixes, which are compared from their ends; read backward, a prefix ends
where it begins, so the table is the recursion on first characters.
-/

namespace LiveDoc.Text

/-- One edit: a character is put in, taken out or replaced, in front or further back. -/
inductive Edit : List Char → List Char → Prop
  | insert (c : Char) (s : List Char) : Edit s (c :: s)
  | delete (c : Char) (s : List Char) : Edit (c :: s) s
  | replace (c d : Char) (s : List Char) : Edit (c :: s) (d :: s)
  | behind (c : Char) {s t : List Char} (h : Edit s t) : Edit (c :: s) (c :: t)

/-- A number of edits, one after the other, turn a text into another. -/
inductive Edited : Nat → List Char → List Char → Prop
  | refl (s : List Char) : Edited 0 s s
  | step {n : Nat} {s t u : List Char} (h : Edit s t) (rest : Edited n t u) : Edited (n + 1) s u

/-- The number of edits counted from the first characters on. -/
def edits : List Char → List Char → Nat
  | [], t => t.length
  | c :: s, [] => s.length + 1
  | c :: s, d :: t =>
    min (if c = d then edits s t else edits s t + 1) (min (edits s (d :: t) + 1) (edits (c :: s) t + 1))
termination_by s t => s.length + t.length

variable {n : Nat} {s t u : List Char} {c d : Char}

@[simp]
theorem edits_nil_left (t : List Char) : edits [] t = t.length := by
  rw [edits]

@[simp]
theorem edits_nil_right (s : List Char) : edits s [] = s.length := by
  cases s <;> simp [edits]

theorem edits_cons_cons (c d : Char) (s t : List Char) : edits (c :: s) (d :: t) =
    min (if c = d then edits s t else edits s t + 1)
      (min (edits s (d :: t) + 1) (edits (c :: s) t + 1)) := by
  rw [edits]

/-! ## As many edits suffice -/

theorem Edited.behind (h : Edited n s t) (c : Char) : Edited n (c :: s) (c :: t) := by
  induction h with
  | refl s => exact .refl _
  | step h _ ih => exact .step (.behind c h) ih

theorem edited_insertAll (t : List Char) : Edited t.length [] t := by
  induction t with
  | nil => exact .refl []
  | cons d t ih => exact .step (.insert d []) (ih.behind d)

theorem edited_deleteAll (s : List Char) : Edited s.length s [] := by
  induction s with
  | nil => exact .refl []
  | cons c s ih => exact .step (.delete c s) ih

theorem edited_edits (s t : List Char) : Edited (edits s t) s t := by
  fun_induction edits s t with
  | case1 t => exact edited_insertAll t
  | case2 c s => exact edited_deleteAll (c :: s)
  | case3 c s d t replaced deleted inserted =>
    rcases min_choice (if c = d then edits s t else edits s t + 1)
      (min (edits s (d :: t) + 1) (edits (c :: s) t + 1)) with h | h
    · rw [h]
      split
      · next hcd => exact hcd ▸ replaced.behind c
      · exact .step (.replace c d s) (replaced.behind d)
    · rw [h]
      rcases min_choice (edits s (d :: t) + 1) (edits (c :: s) t + 1) with h | h
      · rw [h]
        exact .step (.delete c s) deleted
      · rw [h]
        exact .step (.insert d (c :: s)) (inserted.behind d)

/-! ## Fewer edits do not -/

@[simp]
theorem edits_self (s : List Char) : edits s s = 0 := by
  induction s with
  | nil => simp
  | cons c s ih => simp [edits_cons_cons, ih]

theorem edits_cons_left_le (c : Char) (s u : List Char) : edits (c :: s) u ≤ edits s u + 1 := by
  cases u with
  | nil => simp
  | cons d u =>
    rw [edits_cons_cons]
    omega

theorem edits_cons_right_le (s : List Char) (d : Char) (u : List Char) :
    edits s (d :: u) ≤ edits s u + 1 := by
  cases s with
  | nil => simp
  | cons c s =>
    rw [edits_cons_cons]
    omega

theorem edits_le_cons_left (c : Char) (s u : List Char) : edits s u ≤ edits (c :: s) u + 1 := by
  induction u with
  | nil =>
    rw [edits_nil_right, edits_nil_right, List.length_cons]
    omega
  | cons d u ih =>
    have hright := edits_cons_right_le s d u
    rw [edits_cons_cons]
    split <;> omega

/-- An edit brings a text at most one edit nearer to any other. -/
theorem Edit.edits_le (h : Edit s t) (u : List Char) : edits s u ≤ edits t u + 1 := by
  induction h generalizing u with
  | insert c s => exact edits_le_cons_left c s u
  | delete c s => exact edits_cons_left_le c s u
  | replace c d s =>
    induction u with
    | nil => simp
    | cons e u ih =>
      rw [edits_cons_cons, edits_cons_cons d]
      split <;> split <;> omega
  | @behind c s t h ih =>
    -- The other text is taken apart as well, since the table may leave its first character out.
    induction u with
    | nil => simpa using ih []
    | cons d u ihu =>
      have hboth := ih u
      have hone := ih (d :: u)
      rw [edits_cons_cons, edits_cons_cons c]
      split <;> omega

theorem Edited.edits_le (h : Edited n s t) : edits s t ≤ n := by
  induction h with
  | refl s => simp
  | step h _ ih =>
    have hstep := h.edits_le
    exact (hstep _).trans (Nat.add_le_add_right ih 1)

theorem isLeast_edits (s t : List Char) : IsLeast {n | Edited n s t} (edits s t) :=
  ⟨edited_edits s t, fun _ h => h.edits_le⟩

/-! ## Texts read backward -/

theorem Edit.ahead (h : Edit s t) (front : List Char) : Edit (front ++ s) (front ++ t) := by
  induction front with
  | nil => exact h
  | cons c front ih => exact .behind c ih

theorem Edit.append (h : Edit s t) (back : List Char) : Edit (s ++ back) (t ++ back) := by
  induction h with
  | insert c s => exact .insert c (s ++ back)
  | delete c s => exact .delete c (s ++ back)
  | replace c d s => exact .replace c d (s ++ back)
  | behind c _ ih => exact .behind c ih

theorem Edit.reverse (h : Edit s t) : Edit s.reverse t.reverse := by
  induction h with
  | insert c s => simpa using (Edit.insert c []).ahead s.reverse
  | delete c s => simpa using (Edit.delete c []).ahead s.reverse
  | replace c d s => simpa using (Edit.replace c d []).ahead s.reverse
  | behind c _ ih => simpa using ih.append [c]

theorem Edited.reverse (h : Edited n s t) : Edited n s.reverse t.reverse := by
  induction h with
  | refl s => exact .refl _
  | step h _ ih => exact .step h.reverse ih

theorem edited_reverse_iff : Edited n s.reverse t.reverse ↔ Edited n s t := by
  constructor
  · intro h
    simpa using h.reverse
  · exact Edited.reverse

/-! ## The table -/

/-- The row of a text behind the entry of `before`: its edits into each longer prefix, all read backward. -/
def editsRow (s before : List Char) : List Char → List Nat
  | [] => []
  | d :: ds => edits s (d :: before) :: editsRow s (d :: before) ds

theorem distanceRow_eq (c : Char) (s before ds : List Char) :
    distanceRow c ds (editsRow s before ds) (edits s before) (edits (c :: s) before) =
      editsRow (c :: s) before ds := by
  induction ds generalizing before with
  | nil => rfl
  | cons d ds ih =>
    have hhere := edits_cons_cons c d s before
    simp only [editsRow, distanceRow]
    rw [← hhere, ih]

theorem distanceRows_eq (target cs s : List Char) :
    distanceRows target cs s.length (edits s [] :: editsRow s [] target) =
      edits (cs.reverse ++ s) [] :: editsRow (cs.reverse ++ s) [] target := by
  induction cs generalizing s with
  | nil => rfl
  | cons c cs ih =>
    have hfirst : edits (c :: s) [] = s.length + 1 := edits_nil_right _
    rw [distanceRows, ← hfirst, distanceRow_eq]
    have hrest := ih (c :: s)
    simpa using hrest

theorem editsRow_nil (before ds : List Char) :
    editsRow [] before ds = List.range' (before.length + 1) ds.length := by
  induction ds generalizing before with
  | nil => rfl
  | cons d ds ih => simp [editsRow, ih, List.range'_succ]

theorem getLast?_editsRow (s before ds : List Char) :
    (edits s before :: editsRow s before ds).getLast? = some (edits s (ds.reverse ++ before)) := by
  induction ds generalizing before with
  | nil => rfl
  | cons d ds ih =>
    rw [editsRow, List.getLast?_cons_cons, ih, List.reverse_cons, List.append_assoc]
    rfl

theorem distance_eq_edits (a b : String) :
    distance a b = edits a.toList.reverse b.toList.reverse := by
  have hfirst : List.range (b.toList.length + 1) = edits [] [] :: editsRow [] [] b.toList := by
    rw [editsRow_nil, List.range_eq_range', List.range'_succ]
    simp
  have hrows := distanceRows_eq b.toList a.toList []
  rw [distance, hfirst]
  simp only [List.length_nil, List.append_nil] at hrows
  rw [hrows, getLast?_editsRow, List.append_nil, Option.getD_some]

/-- The distance is the least number of edits. -/
theorem isLeast_distance (a b : String) :
    IsLeast {n | Edited n a.toList b.toList} (distance a b) := by
  have hleast := isLeast_edits a.toList.reverse b.toList.reverse
  simpa only [edited_reverse_iff, ← distance_eq_edits] using hleast

theorem distance_eq_zero_iff {a b : String} : distance a b = 0 ↔ a = b := by
  constructor
  · intro h
    have hnone : Edited 0 a.toList b.toList := h ▸ (isLeast_distance a b).1
    generalize ha : a.toList = s at hnone
    generalize hb : b.toList = t at hnone
    cases hnone
    exact String.toList_inj.1 (ha.trans hb.symm)
  · rintro rfl
    rw [distance_eq_edits, edits_self]

end LiveDoc.Text
