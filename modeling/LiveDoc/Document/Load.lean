import LiveDoc.Json.Reader

/-! # Loading a document -/

namespace LiveDoc

inductive LoadError where
  | unreadable
  | notJson
  | notObject (found : Kind)
  deriving DecidableEq, Repr

namespace LoadError

def message : LoadError → String
  | .unreadable => "failed to read the document"
  | .notJson => "invalid JSON document"
  | .notObject found => "document root must be an object, found " ++ found.text

end LoadError

/-- A value that may be a document: its root is a mapping. -/
def checkDocument (value : Value) : Except LoadError Value :=
  if value.isObject then .ok value else .error (.notObject value.kind)

/-- Read a document from JSON text. -/
def loadDocument (text : String) : Except LoadError Value :=
  match Json.read? Json.nestingLimit text with
  | some value => checkDocument value
  | none => .error .notJson

end LiveDoc
