import LiveDoc.Document.Write

/-! # Removing from a document

A removal names its keys exactly. In a mapping both spellings of the slot go; in an array the later
items move up.
-/

namespace LiveDoc

/-- Remove both spellings of a slot, if there is one to remove. -/
def emptySlot? (members : Members) (key : String) : Option Members :=
  let other := counterpart key
  if (members.lookup key).isSome || (members.lookup other).isSome then
    some (Assoc.erase other (Assoc.erase key members))
  else
    none

/-- What is left of a value once a path below it is removed; nothing if there was nothing there. -/
def removeFrom? (current : Value) : List String → Option Value
  | [] => none
  | [segment] =>
    match current with
    | .obj members => (emptySlot? members segment).map .obj
    | .arr items =>
      (Numeral.index? segment).bind fun i =>
        if i < items.length then some (.arr (items.eraseIdx i)) else none
    | _ => none
  | segment :: next :: rest =>
    match current with
    | .obj members =>
      (members.lookup segment).bind fun child =>
        (removeFrom? child (next :: rest)).map fun left => .obj (Assoc.put segment left members)
    | .arr items =>
      (Numeral.index? segment).bind fun i =>
        items[i]?.bind fun child =>
          (removeFrom? child (next :: rest)).map fun left => .arr (items.set i left)
    | _ => none

/-- The document without the slot at a path, or nothing if the slot was empty. The root cannot be
removed. -/
def remove (document : Value) (path : Path) : Except WriteError (Option Value) :=
  if path.segments.isEmpty then .error (.invalidPath path)
  else .ok (removeFrom? document path.segments)

end LiveDoc
