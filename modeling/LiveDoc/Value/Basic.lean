import LiveDoc.Assoc

/-! # Values

The values of a document. The members of an object keep the order in which their keys came first,
and no key stands twice in what the operations build.
-/

namespace LiveDoc

/-- A number: a whole number of 64 bits, with or without a sign, or a double. -/
inductive Number where
  | int (i : Int)
  | float (f : Float)
  deriving Repr

inductive Value where
  | null
  | bool (b : Bool)
  | num (n : Number)
  | str (s : String)
  | arr (items : List Value)
  | obj (members : List (String × Value))
  deriving Inhabited, Repr

/-- The members of an object, in the order in which their keys came first. -/
abbrev Members := List (String × Value)

namespace Number

def toFloat : Number → Float
  | .int i => Float.ofInt i
  | .float f => f

/-- A whole number and a double are never the same number. -/
def same : Number → Number → Bool
  | .int i, .int j => i == j
  | .float f, .float g => f == g
  | _, _ => false

def isZero : Number → Bool
  | .int i => i == 0
  | .float f => f == 0.0

end Number

/-- What a value is, as far as messages tell. -/
inductive Kind where
  | null
  | boolean
  | number
  | string
  | array
  | object
  deriving DecidableEq, Repr

def Kind.text : Kind → String
  | .null => "null"
  | .boolean => "boolean"
  | .number => "number"
  | .string => "string"
  | .array => "array"
  | .object => "object"

namespace Value

def kind : Value → Kind
  | .null => .null
  | .bool _ => .boolean
  | .num _ => .number
  | .str _ => .string
  | .arr _ => .array
  | .obj _ => .object

def string? : Value → Option String
  | .str s => some s
  | _ => none

def isObject : Value → Bool
  | .obj _ => true
  | _ => false

/-- Everything holds but `null`, `false`, zero and the empty text. -/
def truthy : Value → Bool
  | .null => false
  | .bool b => b
  | .num n => !n.isZero
  | .str s => s != ""
  | .arr _ | .obj _ => true

mutual

/-- Equality of values; the order of members does not count. -/
def same : Value → Value → Bool
  | .null, .null => true
  | .bool a, .bool b => a == b
  | .num a, .num b => a.same b
  | .str a, .str b => a == b
  | .arr xs, .arr ys => sameItems xs ys
  | .obj xs, .obj ys => xs.length == ys.length && sameMembers xs ys
  | _, _ => false

def sameItems : List Value → List Value → Bool
  | [], [] => true
  | x :: xs, y :: ys => same x y && sameItems xs ys
  | _, _ => false

def sameMembers : List (String × Value) → List (String × Value) → Bool
  | [], _ => true
  | (k, v) :: rest, ys =>
    (match ys.lookup k with
      | some w => same v w
      | none => false) && sameMembers rest ys

end

/-- Equality in expressions: two numbers are equal when their doubles are. -/
def looseSame : Value → Value → Bool
  | .num a, .num b => a.toFloat == b.toFloat
  | a, b => same a b

mutual

/-- How many containers lie inside one another. -/
def depth : Value → Nat
  | .arr items => depthItems items + 1
  | .obj members => depthMembers members + 1
  | _ => 0

def depthItems : List Value → Nat
  | [] => 0
  | v :: rest => max v.depth (depthItems rest)

def depthMembers : List (String × Value) → Nat
  | [] => 0
  | (_, v) :: rest => max v.depth (depthMembers rest)

end

end Value

end LiveDoc
