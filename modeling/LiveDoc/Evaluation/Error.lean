import LiveDoc.Json.Writer
import LiveDoc.Path
import LiveDoc.Template.Parse

/-! # Why an evaluation fails -/

namespace LiveDoc

/-- The name of an operator in messages. -/
def BinaryOp.text : BinaryOp → String
  | .add => "Add"
  | .sub => "Sub"
  | .mul => "Mul"
  | .div => "Div"
  | .rem => "Rem"
  | .eq => "Eq"
  | .ne => "Ne"
  | .lt => "Lt"
  | .le => "Le"
  | .gt => "Gt"
  | .ge => "Ge"

/-- A value of a kind that an operation does not take. -/
inductive TypeError where
  | operands (op : BinaryOp) (left right : Kind)
  | negated (operand : Kind)
  | indexedBy (index : Kind)
  | measured (value : Kind)
  | notFinite (result : Float)
  | unordered
  deriving Repr

namespace TypeError

/-- The text of a double that is no number of a document. -/
def notFiniteText (f : Float) : String :=
  if f < 0.0 then "-inf" else if 0.0 < f then "inf" else "NaN"

def message : TypeError → String
  | .operands op left right =>
    "cannot apply " ++ op.text ++ " to " ++ left.text ++ " and " ++ right.text
  | .negated operand => "cannot negate " ++ operand.text
  | .indexedBy index => "cannot index with " ++ index.text
  | .measured value => "len() of " ++ value.text
  | .notFinite result => "arithmetic produced non-finite number " ++ notFiniteText result
  | .unordered => "cannot order NaN"

end TypeError

inductive EvalError where
  /-- An expression needs itself; the chain runs from its first place to its second. -/
  | cycle (chain : List Path)
  | depth (limit : Nat) (path : Path)
  | notFound (path : Path)
  | aboveRoot (reference : String)
  | malformedPath (text : String)
  | unknownResolver (name : String) (suggestions : List String)
  | resolver (name message : String)
  | arity (name : String) (least most got : Nat)
  | coercion (builtin : String) (value : Value)
  | type (cause : TypeError)
  | divisionByZero
  | syntaxError (path : Path) (cause : SyntaxError)
  deriving Repr

/-- A coarse division of the failures. -/
inductive ErrorKind where
  | cycle
  | depth
  | evaluation
  deriving DecidableEq, Repr

def ErrorKind.text : ErrorKind → String
  | .cycle => "cycle"
  | .depth => "depth"
  | .evaluation => "evaluation"

namespace EvalError

def kind : EvalError → ErrorKind
  | .cycle _ => .cycle
  | .depth _ _ => .depth
  | _ => .evaluation

def ofPathError : PathError → EvalError
  | .malformed text => .malformedPath text
  | .aboveRoot relative => .aboveRoot relative

def suggestionText (suggestions : List String) : String :=
  if suggestions.isEmpty then "" else "; did you mean: " ++ ", ".intercalate suggestions ++ "?"

def message : EvalError → String
  | .cycle chain => "cyclic reference detected: " ++ " -> ".intercalate (chain.map Path.text)
  | .depth limit path =>
    "maximum evaluation depth " ++ toString limit ++ " exceeded at '" ++ path.text ++ "'"
  | .notFound path => "reference not found: '" ++ path.text ++ "'"
  | .aboveRoot reference => "reference '" ++ reference ++ "' walks above the document root"
  | .malformedPath text => "invalid path '" ++ text ++ "'"
  | .unknownResolver name suggestions =>
    "unknown resolver '" ++ name ++ "'" ++ suggestionText suggestions
  | .resolver name message => "resolver '" ++ name ++ "' failed: " ++ message
  | .arity name least most got =>
    let expected := if least = most then toString least else toString least ++ "-" ++ toString most
    "'" ++ name ++ "' expects " ++ expected ++ " arguments, got " ++ toString got
  | .coercion builtin value => builtin ++ "() cannot convert " ++ value.json
  | .type cause => "type error: " ++ cause.message
  | .divisionByZero => "division by zero"
  | .syntaxError path cause => "in '" ++ path.text ++ "': " ++ cause.message

end EvalError

/-- A failure on its way up, and whether the hook has seen it. -/
structure Fault where
  error : EvalError
  reported : Bool
  deriving Repr

namespace Fault

/-- A failure that the hook has not seen yet. -/
def new (error : EvalError) : Fault :=
  ⟨error, false⟩

def missing : Fault → Bool
  | ⟨.notFound _, false⟩ => true
  | _ => false

end Fault

end LiveDoc
