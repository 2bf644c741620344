import LiveDoc.Evaluation.Error
import LiveDoc.Number.Dyadic
import LiveDoc.Number.Numeral

/-! # Operators

Whole numbers stay whole as long as the result fits in 64 bits; otherwise arithmetic is that of
doubles, and its result has to be finite.
-/

namespace LiveDoc

/-- A number as arithmetic takes it. A whole number that needs all 64 bits counts as a double. -/
inductive Operand where
  | int (i : Int)
  | float (f : Float)
  deriving Repr

namespace Operand

def ofNumber : Number → Operand
  | .int i => if Numeral.fitsSigned i then .int i else .float (Float.ofInt i)
  | .float f => .float f

def ofValue? : Value → Option Operand
  | .num n => some (ofNumber n)
  | _ => none

def toFloat : Operand → Float
  | .int i => Float.ofInt i
  | .float f => f

def isZero (x : Operand) : Bool :=
  x.toFloat == 0.0

end Operand

namespace Operator

/-- A double as a value. -/
def ofFloat (f : Float) : Except EvalError Value :=
  if f.isFinite then .ok (.num (.float f)) else .error (.type (.notFinite f))

/-- A whole result that fits. -/
def fitting (i : Int) : Option Int :=
  if Numeral.fitsSigned i then some i else none

/-- The quotient, if nothing is lost. -/
def exactQuotient (a b : Int) : Option Int :=
  if a.tmod b = 0 then fitting (a.tdiv b) else none

/-- The remainder, if the quotient fits. -/
def wholeRemainder (a b : Int) : Option Int :=
  (fitting (a.tdiv b)).map fun _ => a.tmod b

def operands (op : BinaryOp) (left right : Value) : Except EvalError (Operand × Operand) :=
  match Operand.ofValue? left, Operand.ofValue? right with
  | some a, some b => .ok (a, b)
  | _, _ => .error (.type (.operands op left.kind right.kind))

/-- Arithmetic on whole numbers where both sides are whole and the result fits, else on doubles. -/
def arithmetic (whole : Int → Int → Option Int) (double : Float → Float → Float)
    (x y : Operand) : Except EvalError Value :=
  let approximate := ofFloat (double x.toFloat y.toFloat)
  match x, y with
  | .int a, .int b =>
    match whole a b with
    | some i => .ok (.num (.int i))
    | none => approximate
  | _, _ => approximate

/-- Arithmetic that the right side may not be zero for. -/
def division (whole : Int → Int → Option Int) (double : Float → Float → Float)
    (x y : Operand) : Except EvalError Value :=
  if y.isZero then .error .divisionByZero else arithmetic whole double x y

/-- Sums; a text on either side joins texts, and two arrays are joined. -/
def add (left right : Value) : Except EvalError Value :=
  match left, right with
  | .str _, _ | _, .str _ => .ok (.str (left.render ++ right.render))
  | .arr xs, .arr ys => .ok (.arr (xs ++ ys))
  | _, _ => do
    let (x, y) ← operands .add left right
    arithmetic (fun a b => fitting (a + b)) (· + ·) x y

/-- Texts are ordered by their characters, numbers by their doubles. -/
def order (op : BinaryOp) (left right : Value) : Except EvalError Ordering :=
  match left, right with
  | .str s, .str t => .ok (compare s t)
  | _, _ => do
    let (x, y) ← operands op left right
    let (a, b) := (x.toFloat, y.toFloat)
    if a < b then .ok .lt
    else if b < a then .ok .gt
    else if a == b then .ok .eq
    else .error (.type .unordered)

def binary (op : BinaryOp) (left right : Value) : Except EvalError Value :=
  let compared (holds : Ordering → Bool) : Except EvalError Value := do
    return .bool (holds (← order op left right))
  match op with
  | .add => add left right
  | .sub => do
    let (x, y) ← operands .sub left right
    arithmetic (fun a b => fitting (a - b)) (· - ·) x y
  | .mul => do
    let (x, y) ← operands .mul left right
    arithmetic (fun a b => fitting (a * b)) (· * ·) x y
  | .div => do
    let (x, y) ← operands .div left right
    division exactQuotient (· / ·) x y
  | .rem => do
    let (x, y) ← operands .rem left right
    division wholeRemainder floatRemainder x y
  | .eq => .ok (.bool (left.looseSame right))
  | .ne => .ok (.bool (!left.looseSame right))
  | .lt => compared Ordering.isLT
  | .le => compared Ordering.isLE
  | .gt => compared Ordering.isGT
  | .ge => compared Ordering.isGE

def unary (op : UnaryOp) (operand : Value) : Except EvalError Value :=
  match op with
  | .not => .ok (.bool !operand.truthy)
  | .neg =>
    match Operand.ofValue? operand with
    | none => .error (.type (.negated operand.kind))
    | some (.float f) => ofFloat (-f)
    | some (.int i) =>
      match fitting (-i) with
      | some j => .ok (.num (.int j))
      | none => ofFloat (-Float.ofInt i)

end Operator

end LiveDoc
