import LiveDoc.Number.Numeral
import LiveDoc.Value.Basic

/-! # Stepping into values -/

namespace LiveDoc.Value

/-- The part of a value under one key or array index. -/
def child? (v : Value) (segment : String) : Option Value :=
  match v with
  | .obj members => members.lookup segment
  | .arr items => (Numeral.index? segment).bind (items[·]?)
  | _ => none

/-- Follow segments down from a value. -/
def descend? (v : Value) : List String → Option Value
  | [] => some v
  | s :: rest => (v.child? s).bind (descend? · rest)

theorem descend?_append (v : Value) (ss ts : List String) :
    v.descend? (ss ++ ts) = (v.descend? ss).bind (·.descend? ts) := by
  induction ss generalizing v with
  | nil => rfl
  | cons s rest ih => simp only [List.cons_append, descend?, Option.bind_assoc, ih]

end LiveDoc.Value
