import LiveDoc.Context
import LiveDoc.Evaluation.Error
import LiveDoc.Json.Reader
import LiveDoc.Number.Dyadic
import LiveDoc.Number.Numeral
import LiveDoc.Plural
import LiveDoc.Text.Blank

/-! # Built-in functions

Every expression may call these. A resolver of the same name is never reached.
-/

namespace LiveDoc

inductive Builtin where
  | int
  | float
  | bool
  | json
  | str
  | len
  | upper
  | lower
  | cap
  | plural
  deriving DecidableEq, Repr

namespace Builtin

def all : List Builtin :=
  [.int, .float, .bool, .json, .str, .len, .upper, .lower, .cap, .plural]

def name : Builtin → String
  | .int => "int"
  | .float => "float"
  | .bool => "bool"
  | .json => "json"
  | .str => "str"
  | .len => "len"
  | .upper => "upper"
  | .lower => "lower"
  | .cap => "cap"
  | .plural => "plural"

def ofName? (name : String) : Option Builtin :=
  all.find? (·.name == name)

/-- The names that calls may use without a resolver; `fresh` is one of them. -/
def names : List String :=
  all.map name ++ ["fresh"]

/-- The least and the greatest number of arguments. -/
def arity : Builtin → Nat × Nat
  | .plural => (1, 2)
  | _ => (1, 1)

/-- The whole part of a double, if it is finite and fits. -/
def wholePart? (f : Float) : Option Int :=
  if f.isFinite then
    let whole := (Dyadic.ofFloat f).truncate
    if Numeral.fitsSigned whole then some whole else none
  else none

def toInt? : Value → Option Int
  | .num (.int i) => if Numeral.fitsSigned i then some i else wholePart? (Float.ofInt i)
  | .num (.float f) => wholePart? f
  | .str s =>
    let s := Text.trim s
    (Numeral.int? s).or ((Numeral.float? s).bind wholePart?)
  | .bool b => some (if b then 1 else 0)
  | _ => none

def toFloat? (v : Value) : Option Float :=
  let f := match v with
    | .num n => some n.toFloat
    | .str s => Numeral.float? (Text.trim s)
    | .bool b => some (if b then 1.0 else 0.0)
    | _ => none
  f.filter (·.isFinite)

/-- A text is false if it is blank or spells false or zero. -/
def toBool : Value → Bool
  | .str s => !(["", "false", "0"].contains (Text.lowerAscii (Text.trim s)))
  | v => v.truthy

def length? : Value → Option Nat
  | .str s => some s.length
  | .arr items => some items.length
  | .obj members => some members.length
  | .null => some 0
  | _ => none

/-- The category of a number in the language given, or asked for, or in English. -/
def pluralOf (count : Value) (language : Option Value) (context : Context) :
    Except EvalError Value :=
  let refused (v : Value) : Except EvalError Value := .error (.coercion "plural" v)
  match count with
  | .num (.int n) =>
    if Numeral.fitsSigned n then
      match language with
      | some (.str code) => .ok (.str (pluralCategory code n).text)
      | some other => refused other
      | none => .ok (.str (pluralCategory (context.language?.getD "en") n).text)
    else refused count
  | _ => refused count

/-- Apply a function to its first argument and the others. -/
def apply (b : Builtin) (v : Value) (others : List Value) (context : Context) :
    Except EvalError Value :=
  let convert (result : Option Value) : Except EvalError Value :=
    match result with
    | some w => .ok w
    | none => .error (.coercion b.name v)
  match b with
  | .int => convert ((toInt? v).map fun i => .num (.int i))
  | .float => convert ((toFloat? v).map fun f => .num (.float f))
  | .bool => .ok (.bool (toBool v))
  | .json =>
    match v with
    | .str s => convert (Json.read? Json.nestingLimit s)
    | _ => .ok v
  | .str => .ok (.str v.render)
  | .len =>
    match length? v with
    | some n => .ok (.num (.int n))
    | none => .error (.type (.measured v.kind))
  | .upper => .ok (.str (Text.upper v.render))
  | .lower => .ok (.str (Text.lower v.render))
  | .cap => .ok (.str (Text.capitalize v.render))
  | .plural => pluralOf v others.head? context

/-- Call a function; the number of arguments is checked first. -/
def call (b : Builtin) (args : List Value) (context : Context) : Except EvalError Value :=
  let (least, most) := b.arity
  match args with
  | [] => .error (.arity b.name least most 0)
  | v :: others =>
    if args.length ≤ most then b.apply v others context
    else .error (.arity b.name least most args.length)

end Builtin

end LiveDoc
