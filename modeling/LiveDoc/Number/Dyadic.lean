import LiveDoc.Number.Power

/-! # Doubles as dyadic fractions

A finite double is a sign and a whole number times a power of two. Truncation and remainder are
computed on these parts, so both are exact.
-/

namespace LiveDoc

/-- The number `± mantissa · 2 ^ exponent`. -/
structure Dyadic where
  negative : Bool
  mantissa : Nat
  exponent : Int
  deriving DecidableEq, Repr

namespace Dyadic

/-- The parts of a finite double. The mantissa is below `2 ^ 53` and the exponent at least
`-1074`. -/
def ofFloat (f : Float) : Dyadic :=
  let bits := f.toBits.toNat
  let fraction := bits % twoPow 52
  let power : Nat := bits / twoPow 52 % twoPow 11
  let negative := bits / twoPow 63 == 1
  if power = 0 then ⟨negative, fraction, -1074⟩
  else ⟨negative, fraction + twoPow 52, (power : Int) - 1075⟩

/-- The double `2 ^ e`, for an exponent in the range of doubles. -/
def powerOfTwo (e : Int) : Float :=
  if -1022 ≤ e then
    Float.ofBits (UInt64.ofNat ((e + 1023).toNat * twoPow 52))
  else
    Float.ofBits (UInt64.ofNat (twoPow (e + 1074).toNat))

/-- The double equal to a fraction that has one. -/
def toFloat (d : Dyadic) : Float :=
  let magnitude := Float.ofNat d.mantissa * powerOfTwo d.exponent
  if d.negative then -magnitude else magnitude

/-- The whole part, rounded toward zero. -/
def truncate (d : Dyadic) : Int :=
  let whole := d.mantissa * twoPow d.exponent.toNat / twoPow (-d.exponent).toNat
  if d.negative then -(whole : Int) else whole

/-- The remainder of a division rounded toward zero; it has the sign of the dividend. -/
def remainder (x y : Dyadic) : Dyadic :=
  let e := min x.exponent y.exponent
  ⟨x.negative,
    x.mantissa * twoPow (x.exponent - e).toNat % (y.mantissa * twoPow (y.exponent - e).toNat), e⟩

end Dyadic

/-- The remainder of finite doubles, exact and with the sign of the dividend. -/
def floatRemainder (a b : Float) : Float :=
  ((Dyadic.ofFloat a).remainder (Dyadic.ofFloat b)).toFloat

end LiveDoc
