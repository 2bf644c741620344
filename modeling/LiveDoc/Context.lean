import LiveDoc.Json.Writer
import LiveDoc.Path
import LiveDoc.Variant.Dimension

/-! # Contexts

A context asks for values on dimensions, by name. Contexts lie in layers and the later layer wins.
-/

namespace LiveDoc

abbrev Context := Table String String

namespace Context

/-- The entry text of a value; only texts, truth values and numbers have one. -/
def entryText? : Value → Option String
  | .str s => some s
  | .bool b => some (Value.bool b).json
  | .num n => some n.text
  | _ => none

/-- The context that an object writes; entries of other kinds are left out. -/
def ofValue : Value → Context
  | .obj members => .ofList (members.filterMap fun (k, v) => (entryText? v).map (k, ·))
  | _ => .empty

/-- The context that a mapping declares for itself. -/
def ofMembers (members : Members) : Context :=
  ((members.lookup contextKey).map ofValue).getD .empty

/-- The context that a value declares for itself. -/
def own : Value → Context
  | .obj members => ofMembers members
  | _ => .empty

/-- The language asked for, under either of its names. -/
def language? (c : Context) : Option String :=
  (c.get? "language").or (c.get? "lang")

/-- The text by which contexts are told apart. -/
def fingerprint (c : Context) : String :=
  ";".intercalate (c.entries.map fun (k, v) => k ++ "=" ++ v)

/-- What is asked for on each dimension. Of two names of one dimension the later name wins. -/
def requested (c : Context) : Table Dimension String :=
  .ofList (c.entries.map fun (k, v) => let t := Tag.ofEntry k v; (t.dimension, t.value))

/-- The context as an object. -/
def toMembers (c : Context) : Members :=
  c.entries.map fun (k, v) => (k, .str v)

end Context

end LiveDoc
