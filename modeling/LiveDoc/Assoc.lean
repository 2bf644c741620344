/-! # Association lists

Finite maps whose entries keep the order in which their keys came first. Look-up is `List.lookup`.
-/

namespace LiveDoc.Assoc

variable {κ ν : Type} [DecidableEq κ]

/-- Replace the value of a key in place, or add the key at the end. -/
def put (key : κ) (value : ν) : List (κ × ν) → List (κ × ν)
  | [] => [(key, value)]
  | (k, v) :: rest => if k = key then (k, value) :: rest else (k, v) :: put key value rest

/-- Remove a key; what follows it moves up. -/
def erase (key : κ) : List (κ × ν) → List (κ × ν)
  | [] => []
  | (k, v) :: rest => if k = key then rest else (k, v) :: erase key rest

/-- The map of a list of entries: a repeated key keeps its first place and takes its last value. -/
def ofList (entries : List (κ × ν)) : List (κ × ν) :=
  entries.foldl (fun es e => put e.1 e.2 es) []

theorem lookup_put (key k : κ) (value : ν) (es : List (κ × ν)) :
    (put key value es).lookup k = if k = key then some value else es.lookup k := by
  induction es with
  | nil =>
    by_cases h : k = key
    · simp [put, h]
    · simp [put, List.lookup_cons, h, beq_eq_false_iff_ne.2 h]
  | cons e rest ih =>
    obtain ⟨k', v⟩ := e
    by_cases hk : k' = key
    · subst hk
      by_cases h : k = k'
      · simp [put, h]
      · simp [put, List.lookup_cons, h, beq_eq_false_iff_ne.2 h]
    · by_cases h : k = k'
      · subst h
        simp [put, hk]
      · simp [put, List.lookup_cons, hk, beq_eq_false_iff_ne.2 h, ih]

end LiveDoc.Assoc
