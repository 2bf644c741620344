import LiveDoc.Text.Case

/-! # Reading numerals

Whole numbers in bounds, and decimals as doubles.
-/

namespace LiveDoc

namespace Numeral

/-- The number that a list of digits writes. -/
def ofDigits (ds : List Char) : Nat :=
  ds.foldl (fun n d => 10 * n + (d.toNat - '0'.toNat)) 0

/-- A whole number written with digits alone, at least one of them. -/
def nat? (ds : List Char) : Option Nat :=
  if !ds.isEmpty && ds.all Char.isDigit then some (ofDigits ds) else none

/-- Whether a whole number fits in 64 bits without a sign. -/
def fitsUnsigned (n : Nat) : Bool :=
  n < 18446744073709551616

/-- Whether a whole number fits in 64 bits with a sign. -/
def fitsSigned (i : Int) : Bool :=
  -9223372036854775808 ≤ i && i < 9223372036854775808

/-- An index: digits that fit in 64 bits, after an optional plus sign. -/
def index? (s : String) : Option Nat :=
  let digits := match s.toList with
    | '+' :: rest => rest
    | cs => cs
  (nat? digits).filter fitsUnsigned

/-- A sign and what follows it. -/
def signed : List Char → Bool × List Char
  | '-' :: rest => (true, rest)
  | '+' :: rest => (false, rest)
  | cs => (false, cs)

/-- A whole number of 64 bits with an optional sign. -/
def int? (s : String) : Option Int :=
  let (negative, digits) := signed s.toList
  (nat? digits).bind fun n =>
    let i : Int := if negative then -(n : Int) else n
    if fitsSigned i then some i else none

/-- The double nearest to `digits · 10 ^ exponent`, infinite when that is out of range. Exponents
far out of range are answered without computing the power. -/
def nearest (digits : Nat) (exponent : Int) : Float :=
  let magnitude := exponent + (Nat.toDigits 10 digits).length
  if digits = 0 ∨ magnitude < -330 then 0.0
  else if magnitude > 310 then 1.0 / 0.0
  else Float.ofScientific digits (exponent < 0) exponent.natAbs

/-- Split off the leading digits. -/
def takeDigits (cs : List Char) : List Char × List Char :=
  cs.span Char.isDigit

/-- The exponent that ends a numeral: nothing, or `e`, an optional sign and digits. -/
def exponent? : List Char → Option Int
  | [] => some 0
  | c :: rest =>
    if c == 'e' || c == 'E' then
      let (negative, digits) := signed rest
      (nat? digits).map fun n => if negative then -(n : Int) else n
    else
      none

/-- An unsigned decimal: digits with a point somewhere, at least one digit in all, then an
exponent. -/
def magnitude? (cs : List Char) : Option Float :=
  let (whole, rest) := takeDigits cs
  let (fraction, tail) := match rest with
    | '.' :: more => takeDigits more
    | _ => ([], rest)
  if whole.isEmpty && fraction.isEmpty then none
  else (exponent? tail).map fun e => nearest (ofDigits (whole ++ fraction)) (e - fraction.length)

/-- A decimal with an optional sign, or one of the words for infinity and for no number. -/
def float? (s : String) : Option Float :=
  let (negative, cs) := signed s.toList
  let word := Text.lowerAscii (String.ofList cs)
  let magnitude :=
    if word = "inf" ∨ word = "infinity" then some (1.0 / 0.0)
    else if word = "nan" then some (0.0 / 0.0)
    else magnitude? cs
  magnitude.map fun f => if negative then -f else f

end Numeral

end LiveDoc
