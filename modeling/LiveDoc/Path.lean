import LiveDoc.Text.Split

/-! # Paths

A path names a place in a document by its segments. In text a dot separates segments; an empty part
marks the segment after it as an expression key, so the key `.greet` inside `user` is `user..greet`.
-/

namespace LiveDoc

/-- The segment that climbs one level. -/
def parentSegment : String := "^"

/-- The first character of a key that holds an expression. -/
def marker : Char := '.'

/-- The key whose members override the context inside a mapping. -/
def contextKey : String := "$context"

structure Path where
  segments : List String
  deriving DecidableEq, Repr, Inhabited

/-- Why a text names no path. -/
inductive PathError where
  | malformed (text : String)
  | aboveRoot (relative : String)
  deriving DecidableEq, Repr

namespace PathError

def text : PathError → String
  | .malformed text => text
  | .aboveRoot relative => relative

def message : PathError → String
  | .malformed text => "invalid path '" ++ text ++ "'"
  | .aboveRoot relative => "path '" ++ relative ++ "' walks above the document root"

end PathError

/-- A key with the expression marker in front. -/
def mark (key : String) : String :=
  String.ofList (marker :: key.toList)

/-- A key without its expression marker, if it has one. -/
def unmark? (key : String) : Option String :=
  Text.stripHead? marker key

def isMarked (key : String) : Bool :=
  (unmark? key).isSome

def unmark (key : String) : String :=
  (unmark? key).getD key

/-- The name of the slot that a segment belongs to, without marker and variant tags. -/
def slotName (segment : String) : String :=
  let name := unmark segment
  ((Text.cut? ':' name).map (·.1)).getD name

namespace Path

def root : Path :=
  ⟨[]⟩

/-- Segments of the parts between dots; `marked` says that an empty part stands just before. -/
def ofParts? : Bool → List String → Option (List String)
  | marked, [] => if marked then none else some []
  | marked, part :: rest =>
    if part = "" then
      if marked then none else ofParts? true rest
    else
      (ofParts? false rest).map fun segments =>
        (if marked then mark part else part) :: segments

def parse? (text : String) : Option Path :=
  if text = "" then some root else (ofParts? false (Text.split '.' text)).map .mk

def parse (text : String) : Except PathError Path :=
  match parse? text with
  | some p => .ok p
  | none => .error (.malformed text)

def text (p : Path) : String :=
  ".".intercalate p.segments

def length (p : Path) : Nat :=
  p.segments.length

def last? (p : Path) : Option String :=
  p.segments.getLast?

/-- The first `n` segments. -/
def take (p : Path) (n : Nat) : Path :=
  ⟨p.segments.take n⟩

/-- The path around this one; the root has none. -/
def parent? (p : Path) : Option Path :=
  if p.segments.isEmpty then none else some ⟨p.segments.dropLast⟩

def child (p : Path) (segment : String) : Path :=
  ⟨p.segments ++ [segment]⟩

def append (p : Path) (segments : List String) : Path :=
  ⟨p.segments ++ segments⟩

/-- Follow segments from a place, climbing at `^`; there is nothing above the root. -/
def follow? (place : List String) : List String → Option (List String)
  | [] => some place
  | s :: rest =>
    if s = parentSegment then
      if place.isEmpty then none else follow? place.dropLast rest
    else
      follow? (place ++ [s]) rest

def join (base relative : Path) : Except PathError Path :=
  match follow? base.segments relative.segments with
  | some segments => .ok ⟨segments⟩
  | none => .error (.aboveRoot relative.text)

/-- Read a text as a path from `base`. -/
def resolve (base : Path) (text : String) : Except PathError Path := do
  base.join (← parse text)

/-- The slots on the way, whichever key fills them. -/
def logical (p : Path) : Path :=
  ⟨p.segments.map slotName⟩

/-- The path cut at each length, the root first. -/
def stages (p : Path) : List Path :=
  (List.range (p.length + 1)).map p.take

/-- Whether a path leads to or through this one. -/
def leadsTo (p q : Path) : Bool :=
  p.segments.isPrefixOf q.segments

/-- Order of segments from the first on; a path comes before those that it leads to. -/
def compareSegments : List String → List String → Ordering
  | [], [] => .eq
  | [], _ :: _ => .lt
  | _ :: _, [] => .gt
  | s :: ss, t :: ts => (compare s t).then (compareSegments ss ts)

def order (p q : Path) : Ordering :=
  compareSegments p.segments q.segments

end Path

end LiveDoc
