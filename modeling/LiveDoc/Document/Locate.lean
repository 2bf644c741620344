import LiveDoc.Value.Access
import LiveDoc.Variant.Ranking

/-! # Locating a path

A walk from the root picks a key at every mapping, takes up the contexts that the mappings declare,
and stops at the first expression. Nothing is evaluated.
-/

namespace LiveDoc

/-- An expression met on a walk, with the context in force at the mapping that owns it and the
segments that were still to follow. -/
structure Site where
  path : Path
  text : String
  context : Context
  rest : List String

namespace Site

/-- The mapping that owns the expression. -/
def owner (s : Site) : Path :=
  s.path.parent?.getD .root

end Site

inductive Located where
  | missing
  | static (path : Path) (value : Value) (context : Context)
  | expression (site : Site)

/-- Whether a segment names its key exactly instead of letting variants compete. -/
def isExact (segment : String) : Bool :=
  segment.toList.contains ':' || isMarked segment

/-- The key of a mapping that a segment addresses under a context. -/
def selectKey (members : Members) (segment : String) (context : Context) : Option String :=
  if isExact segment then
    if (members.lookup segment).isSome then some segment else none
  else
    resolveVariant segment context (members.map (·.1))

/-- The key and the value that a segment leads to from a value. -/
def enter? (current : Value) (segment : String) (context : Context) : Option (String × Value) :=
  match current with
  | .obj members =>
    (selectKey members segment context).bind fun key => (members.lookup key).map (key, ·)
  | _ => (current.child? segment).map (segment, ·)

/-- Walk on from a value that lies at a path. -/
def walk (current : Value) (path : Path) (context : Context) : List String → Located
  | [] => .static path current context
  | segment :: rest =>
    match enter? current segment context with
    | none => .missing
    | some (key, value) =>
      let path := path.child key
      match isMarked key, value with
      | true, .str text => .expression ⟨path, text, context, rest⟩
      | _, _ => walk value path (context.merge (Context.own value)) rest

/-- What a path of a document leads to under a context. -/
def locate (document : Value) (path : Path) (context : Context) : Located :=
  walk document .root (context.merge (Context.own document)) path.segments

end LiveDoc
