import LiveDoc.Document.Locate

/-! # Writing to a document

A write selects keys as a read does and creates the mappings that are missing. The slot that it
fills holds either a value or an expression: writing one spelling of its key removes the other.
-/

namespace LiveDoc

/-- Names of operations, which no key may have. -/
def reservedNames : List String :=
  ["get", "set", "has", "delete", "clear", "keys"]

inductive WriteError where
  | reservedKey (key : String)
  | notContainer (path : Path)
  | invalidPath (path : Path)
  | badPath (cause : PathError)
  | indexOutOfBounds (path : Path) (index size : Nat)
  deriving DecidableEq, Repr

namespace WriteError

def message : WriteError → String
  | .reservedKey key => "'" ++ key ++ "' is a reserved key and cannot be set"
  | .notContainer path => "'" ++ path.text ++ "' is not an object or array"
  | .invalidPath path => "invalid path '" ++ path.text ++ "'"
  | .badPath cause => cause.message
  | .indexOutOfBounds path index size =>
    "index " ++ toString index ++ " out of bounds for array of length " ++ toString size ++
      " at '" ++ path.text ++ "'"

end WriteError

/-- The reserved name that a segment spells, if it spells one. -/
def reservedName? (segment : String) : Option String :=
  let name := slotName segment
  if name ∈ reservedNames then some name else none

/-- The other spelling of a key: with the marker if it has none, without it if it has one. -/
def counterpart (key : String) : String :=
  (unmark? key).getD (mark key)

/-- Fill a slot of a mapping. -/
def fillSlot (members : Members) (key : String) (value : Value) : Members :=
  Assoc.put key value (Assoc.erase (counterpart key) members)

/-- The index that a segment names in an array at a path. -/
def indexAt (path : Path) (segment : String) : Except WriteError Nat :=
  match Numeral.index? segment with
  | some i => .ok i
  | none => .error (.invalidPath (path.child segment))

/-- Write the last segment. An array takes a value at an index in use or just behind the last. -/
def writeLast (value : Value) (path : Path) (current : Value) (segment : String) :
    Except WriteError Value :=
  match current with
  | .obj members => .ok (.obj (fillSlot members segment value))
  | .arr items => do
    let i ← indexAt path segment
    if i < items.length then .ok (.arr (items.set i value))
    else if i = items.length then .ok (.arr (items ++ [value]))
    else .error (.indexOutOfBounds path i items.length)
  | _ => .error (.notContainer path)

/-- Where a write goes on from a value: the part it enters, the context there, and what the value is
with that part replaced. -/
structure Descent where
  child : Value
  context : Context
  rebuild : Value → Value

/-- Enter the part of a value that a segment before the last names. A mapping that is missing is
created. -/
def descent (path : Path) (context : Context) (current : Value) (segment : String) :
    Except WriteError Descent :=
  match current with
  | .obj members =>
    let below (key : String) (child : Value) : Descent :=
      ⟨child, context.merge (Context.own child), fun v => .obj (Assoc.put key v members)⟩
    match selectKey members segment context with
    | some key =>
      if isMarked key then .error (.notContainer (path.child key))
      else
        match members.lookup key with
        | some child => .ok (below key child)
        | none => .error (.notContainer (path.child key))
    | none =>
      match reservedName? segment with
      | some name => .error (.reservedKey name)
      | none => .ok (below segment (.obj []))
  | .arr items =>
    match indexAt path segment with
    | .error e => .error e
    | .ok i =>
      match items[i]? with
      | none => .error (.indexOutOfBounds path i items.length)
      | some child => .ok ⟨child, context, fun v => .arr (items.set i v)⟩
  | _ => .error (.notContainer path)

/-- Write below a value that lies at a path. The value comes back as the write left it, with the
mappings created on the way also when the write failed further down. -/
def writeFrom (value : Value) (path : Path) (context : Context) (current : Value) :
    List String → Value × Except WriteError Unit
  | [] => (current, .error (.invalidPath path))
  | [segment] =>
    match writeLast value path current segment with
    | .ok written => (written, .ok ())
    | .error e => (current, .error e)
  | segment :: next :: rest =>
    match descent path context current segment with
    | .error e => (current, .error e)
    | .ok d =>
      let (written, outcome) := writeFrom value (path.child segment) d.context d.child (next :: rest)
      (d.rebuild written, outcome)

/-- Write a value at a path of a document under the global context. -/
def write (document : Value) (path : Path) (value : Value) (context : Context) :
    Value × Except WriteError Unit :=
  match path.last?.bind reservedName? with
  | some name => (document, .error (.reservedKey name))
  | none =>
    writeFrom value .root (context.merge (Context.own document)) document path.segments

end LiveDoc
