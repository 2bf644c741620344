import LiveDoc.Number.Dyadic
import LiveDoc.Number.Shortest

/-! # The text of a double -/

namespace LiveDoc

/-- How a decimal is laid out: positional between two exponents of the first digit, scientific
outside them. -/
structure DecimalLayout where
  lowest : Int
  highest : Int

namespace DecimalLayout

def zeros (n : Nat) : List Char :=
  List.replicate n '0'

/-- Positional text with at least one digit on either side of the point. -/
def positional (digits : List Char) (exponent : Int) : List Char :=
  if exponent < 0 then
    ['0', '.'] ++ zeros (-exponent - 1).toNat ++ digits
  else
    let whole := exponent.toNat + 1
    let fraction := digits.drop whole
    digits.take whole ++ zeros (whole - digits.length) ++ ['.'] ++
      (if fraction.isEmpty then ['0'] else fraction)

/-- Scientific text; the exponent always has a sign. -/
def scientific (digits : List Char) (exponent : Int) : List Char :=
  let fraction := digits.drop 1
  digits.take 1 ++ (if fraction.isEmpty then [] else '.' :: fraction) ++
    ['e', if exponent < 0 then '-' else '+'] ++ Nat.toDigits 10 exponent.natAbs

def text (layout : DecimalLayout) (d : Shortest.Decimal) : List Char :=
  let digits := Nat.toDigits 10 d.digits
  let exponent := d.exponent + digits.length - 1
  if layout.lowest ≤ exponent ∧ exponent ≤ layout.highest then
    positional digits exponent
  else
    scientific digits exponent

end DecimalLayout

/-- Doubles are positional from `0.00001` up to sixteen digits before the point. -/
def floatLayout : DecimalLayout :=
  ⟨-5, 15⟩

/-- The text of a finite double. -/
def floatText (f : Float) : String :=
  let d := Dyadic.ofFloat f
  let magnitude :=
    if d.mantissa = 0 then ['0', '.', '0']
    else floatLayout.text (Shortest.decimal d.mantissa d.exponent)
  String.ofList (if d.negative then '-' :: magnitude else magnitude)

end LiveDoc
