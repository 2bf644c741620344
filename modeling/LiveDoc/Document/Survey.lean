import LiveDoc.Document.Locate

/-! # Surveying a document

The slots of a mapping, the expressions of a document, and its groups of variants.
-/

namespace LiveDoc

/-- The slots of a mapping by base name, in the order of their first keys. -/
def baseNames (members : Members) : List String :=
  (((members.map (·.1)).filter (· != contextKey)).map slotName).eraseDups

mutual

/-- The paths of the expressions below a value that lies at a path. -/
def expressionsAt (path : Path) : Value → List Path
  | .obj members => expressionsOfMembers path members
  | .arr items => expressionsOfItems path 0 items
  | _ => []

def expressionsOfMembers (path : Path) : List (String × Value) → List Path
  | [] => []
  | (key, value) :: rest =>
    (if isMarked key && value.string?.isSome then [path.child key]
      else expressionsAt (path.child key) value) ++ expressionsOfMembers path rest

def expressionsOfItems (path : Path) (index : Nat) : List Value → List Path
  | [] => []
  | value :: rest =>
    expressionsAt (path.child (toString index)) value ++ expressionsOfItems path (index + 1) rest

end

/-- The paths of all expressions, in document order. -/
def expressionPaths (document : Value) : List Path :=
  expressionsAt .root document

/-- The keys that compete for a slot, best first, and the one that reads reach. -/
structure VariantGroup where
  path : Path
  candidates : List Candidate
  winner : Option String

/-- The groups of one mapping: base names with a tagged key among their keys. -/
def groupsOfMapping (path : Path) (context : Context) (members : Members) : List VariantGroup :=
  (baseNames members).filterMap fun name =>
    let ranked := rankVariants name context (members.map (·.1))
    if ranked.any (!·.plain) then some ⟨path.child name, ranked, winner? ranked⟩ else none

mutual

/-- The groups at and below a value that lies at a path. -/
def groupsAt (path : Path) (context : Context) : Value → List VariantGroup
  | .obj members =>
    let context : Context := context.merge (Context.ofMembers members)
    groupsOfMapping path context members ++ groupsOfMembers path context members
  | .arr items => groupsOfItems path context 0 items
  | _ => []

def groupsOfMembers (path : Path) (context : Context) :
    List (String × Value) → List VariantGroup
  | [] => []
  | (key, value) :: rest =>
    (if key = contextKey then [] else groupsAt (path.child key) context value) ++
      groupsOfMembers path context rest

def groupsOfItems (path : Path) (context : Context) (index : Nat) :
    List Value → List VariantGroup
  | [] => []
  | value :: rest =>
    groupsAt (path.child (toString index)) context value ++
      groupsOfItems path context (index + 1) rest

end

/-- The variant groups of a document under a context, in document order. -/
def variantGroups (document : Value) (context : Context) : List VariantGroup :=
  groupsAt .root context document

end LiveDoc
