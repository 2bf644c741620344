import LiveDoc.Json.Reader
import LiveDoc.Template.Scanner
import LiveDoc.Template.Syntax
import LiveDoc.Text.Letter

/-! # The grammar of templates

Operators from loosest to tightest: the conditional, `??`, `||`, `&&`, equality, order, sums,
products, signs, and indices and members behind a value. The rules take the scanner of expressions
one level further in; the nesting of a text is never deeper than the text is long.
-/

namespace LiveDoc.Grammar

open Scanner

/-! ## Words -/

def isWordStart (c : Char) : Bool :=
  Text.isAlphabetic c || c == '_' || c == '$'

def isWordChar (c : Char) : Bool :=
  Text.isAlphanumeric c || c == '_' || c == '$'

def identifier : Scanner String := do
  let c ← one isWordStart
  return String.ofList (c :: (← run isWordChar))

/-- A step of a reference after a dot; it may start with a digit. -/
def keyWord : Scanner String := do
  return String.ofList (← run₁ isWordChar)

def dotted (word : Scanner String) : Scanner String := do
  char '.'
  word

/-! ## Literals -/

/-- The number that digits and perhaps a fraction write, if it has no idle leading zero and is in
range. -/
def numberOf? (whole fraction : List Char) : Option Number :=
  match whole with
  | '0' :: _ :: _ => none
  | _ => Json.numberOf false whole fraction none

def number : Scanner Expr :=
  fun cs =>
    let digits : Scanner (List Char × List Char) := do
      let whole ← run₁ Char.isDigit
      let fraction ← (do char '.'; run₁ Char.isDigit).opt
      return (whole, fraction.getD [])
    match digits cs with
    | .accept (whole, fraction) rest =>
      match numberOf? whole fraction with
      | some n => .accept (.lit (.num n)) rest
      | none => .refuse cs
    | .refuse rest => .refuse rest
    | .broken rest => .broken rest

/-- The character that an escape in quotes stands for. -/
def unescape : Char → Char
  | 'n' => '\n'
  | 't' => '\t'
  | 'r' => '\r'
  | c => c

def quotedBy (quote : Char) : Scanner String := do
  char quote
  let cs ← many <| orElse
    (do char '\x5c'; return unescape (← one fun _ => true))
    (one fun c => c != quote && c != '\x5c')
  char quote
  return String.ofList cs

def quoted : Scanner String :=
  (quotedBy '\x27').orElse (quotedBy '\x22')

/-! ## Templates -/

/-- The character that encloses a template inside an expression. -/
def backTick : Char := '\x60'

/-- A span. Once it is open it has to be well formed. -/
def span (expression : Scanner Expr) : Scanner Part := do
  token ['$', '\x7b']
  commit do
    let e ← spaced expression
    char '\x7d'
    return .span e

def escape : Scanner Part := do
  char '\x5c'
  let c ← one fun c => c == '$' || c == '\x5c' || c == backTick
  return .text (String.ofList [c])

/-- A part of a template: an escape, a span, one of their characters alone, or plain text. -/
def part (expression : Scanner Expr) (closing : Option Char) : Scanner Part :=
  firstOf [
    escape,
    span expression,
    do char '$'; return .text "$",
    do char '\x5c'; return .text "\x5c",
    do
      let cs ← run₁ fun c => c != '$' && c != '\x5c' && some c != closing
      return .text (String.ofList cs)]

/-- Parts up to the end of the text or the closing character. -/
def partsUpTo (expression : Scanner Expr) (closing : Option Char) : Nat → Scanner (List Part)
  | 0 => pure []
  | n + 1 => fun cs =>
    match cs with
    | [] => .accept [] []
    | c :: _ =>
      if some c = closing then .accept [] cs
      else
        (do
          let p ← part expression closing
          return p :: (← partsUpTo expression closing n) : Scanner (List Part)) cs

def template (expression : Scanner Expr) (closing : Option Char) : Scanner Template :=
  fun cs => (do return .ofParts (← partsUpTo expression closing cs.length) : Scanner Template) cs

def backTicked (expression : Scanner Expr) : Scanner Expr := do
  char backTick
  let t ← template expression (some backTick)
  char backTick
  return .template t

/-! ## Values -/

def close (c : Char) : Scanner Unit := do
  space
  char c

def array (expression : Scanner Expr) : Scanner Expr := do
  char '['
  space
  let items ← separatedBy (char ',') (spaced expression)
  close ']'
  return .array items

def entry (expression : Scanner Expr) : Scanner (String × Expr) := do
  let key ← quoted.orElse identifier
  spaced (char ':')
  return (key, ← expression)

def object (expression : Scanner Expr) : Scanner Expr := do
  char '\x7b'
  space
  let entries ← separatedBy (spaced (char ',')) (entry expression)
  close '\x7d'
  return .object entries

def parenthesized (expression : Scanner Expr) : Scanner Expr := do
  char '('
  space
  let e ← expression
  close ')'
  return e

def bracketed (expression : Scanner Expr) : Scanner Expr := do
  char '['
  space
  let e ← expression
  close ']'
  return e

/-! ## References and calls -/

def refStep (expression : Scanner Expr) : Scanner RefStep :=
  orElse (do return .key (← dotted keyWord)) (do return .at (← bracketed expression))

def refTail (expression : Scanner Expr) : Scanner (List RefStep) :=
  many (refStep expression)

/-- A reference that climbs before it descends. -/
def climbing (expression : Scanner Expr) : Scanner Expr := do
  let parents ← some₁ (do char '^'; char '.')
  let first ← keyWord
  return .ref parents.length (.key first :: (← refTail expression))

/-- The name of a call that starts with a word, read up to its opening parenthesis. -/
def callHead (first : String) : Scanner String := do
  let rest ← many (dotted identifier)
  close '('
  return ".".intercalate (first :: rest)

def arguments (expression : Scanner Expr) : Scanner (List Expr) := do
  let args ← separatedBy (char ',') (spaced expression)
  close ')'
  return args

/-- A call; `fresh` of one reference is a reference of its own kind. -/
def callOf (name : String) (args : List Expr) : Expr :=
  match args with
  | [.ref parents steps] => if name = "fresh" then .fresh parents steps else .call name args
  | _ => .call name args

/-- What starts with a word: a literal word, a call, or a reference. -/
def named (expression : Scanner Expr) : Scanner Expr := do
  let first ← identifier
  if first = "true" then return .lit (.bool true)
  else if first = "false" then return .lit (.bool false)
  else if first = "null" then return .lit .null
  else
    match ← (callHead first).opt with
    | some name => return callOf name (← arguments expression)
    | none => return .ref 0 (.key first :: (← refTail expression))

/-! ## Operators -/

def primary (expression : Scanner Expr) : Scanner Expr :=
  firstOf [
    number,
    do return .lit (.str (← quoted)),
    backTicked expression,
    array expression,
    object expression,
    parenthesized expression,
    climbing expression,
    named expression]

/-- An index or a member behind a value. -/
def suffix (expression : Scanner Expr) : Scanner (Expr → Expr) :=
  orElse
    (do let i ← bracketed expression; return fun e => .index e i)
    (do let key ← dotted keyWord; return fun e => .member e key)

def suffixed (expression : Scanner Expr) : Scanner Expr := do
  let e ← primary expression
  let suffixes ← many (suffix expression)
  return suffixes.foldl (fun e f => f e) e

def sign : Scanner UnaryOp := do
  let op ← orElse (do char '!'; return .not) (do char '-'; return .neg)
  space
  return op

def signed (expression : Scanner Expr) : Scanner Expr := do
  let signs ← many sign
  let e ← suffixed expression
  return signs.foldr .unary e

/-- The binary operators of one level, the longer spellings first. -/
def binaryAt (ops : List (String × BinaryOp)) (operand : Scanner Expr) : Scanner Expr :=
  chain operand <| spaced <| firstOf <| ops.map fun (spelling, op) => do
    token spelling.toList
    return .binary op

def logicalAt (spelling : String) (op : LogicalOp) (operand : Scanner Expr) : Scanner Expr :=
  chain operand <| spaced do
    token spelling.toList
    return .logical op

def products (expression : Scanner Expr) : Scanner Expr :=
  binaryAt [("*", .mul), ("/", .div), ("%", .rem)] (signed expression)

def sums (expression : Scanner Expr) : Scanner Expr :=
  binaryAt [("+", .add), ("-", .sub)] (products expression)

def comparisons (expression : Scanner Expr) : Scanner Expr :=
  binaryAt [("<=", .le), (">=", .ge), ("<", .lt), (">", .gt)] (sums expression)

def equalities (expression : Scanner Expr) : Scanner Expr :=
  binaryAt [("==", .eq), ("!=", .ne)] (comparisons expression)

def conjunctions (expression : Scanner Expr) : Scanner Expr :=
  logicalAt "&&" .and (equalities expression)

def disjunctions (expression : Scanner Expr) : Scanner Expr :=
  logicalAt "||" .or (conjunctions expression)

def coalescings (expression : Scanner Expr) : Scanner Expr :=
  logicalAt "??" .coalesce (disjunctions expression)

def branches (expression : Scanner Expr) : Scanner (Expr × Expr) := do
  spaced (char '?')
  let yes ← expression
  spaced (char ':')
  return (yes, ← expression)

def conditional (expression : Scanner Expr) : Scanner Expr := do
  let condition ← coalescings expression
  match ← (branches expression).opt with
  | some (yes, no) => return .conditional condition yes no
  | none => return condition

/-- Expressions nested at most to the given depth. -/
def expression : Nat → Scanner Expr
  | 0 => fail
  | depth + 1 => conditional (expression depth)

end LiveDoc.Grammar
