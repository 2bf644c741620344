import LiveDoc.Number.Power

/-! # Shortest decimals

Among the decimals that read back as a given double, the one with the fewest digits, and of those
the nearest. The numbers that round to `m · 2 ^ q` form an interval around it; the coarsest grid
`10 ^ k` with a point inside gives the digits.
-/

namespace LiveDoc.Shortest

/-- A decimal `digits · 10 ^ exponent`. -/
structure Decimal where
  digits : Nat
  exponent : Int
  deriving DecidableEq, Repr

/-- The lower end of the interval in quarters of a unit in the last place. Below a power of two the
doubles lie twice as close. -/
def lowerEnd (m : Nat) (q : Int) : Nat :=
  if m = twoPow 52 ∧ -1074 < q then 4 * m - 1 else 4 * m - 2

/-- The upper end of the interval in quarters of a unit in the last place. -/
def upperEnd (m : Nat) : Nat :=
  4 * m + 2

/-- Factors that carry multiples of `10 ^ k` and of `2 ^ (q - 2)` to one common unit. -/
def gridFactor (k q : Int) : Nat :=
  tenPow k.toNat * twoPow (2 - q).toNat

def quarterFactor (k q : Int) : Nat :=
  twoPow (q - 2).toNat * tenPow (-k).toNat

/-- Whether `c · 10 ^ k` rounds to `m · 2 ^ q`; the ends belong to an even mantissa. -/
def inside (m : Nat) (q k : Int) (c : Nat) : Bool :=
  let x := c * gridFactor k q
  let low := lowerEnd m q * quarterFactor k q
  let high := upperEnd m * quarterFactor k q
  if m % 2 = 0 then low ≤ x && x ≤ high else low < x && x < high

/-- The point of the grid `10 ^ k` in the interval that is nearest to the double; of two equally
near ones the even. -/
def onGrid? (m : Nat) (q k : Int) : Option Nat :=
  let value := 4 * m * quarterFactor k q
  let below := value / gridFactor k q
  let above := below + 1
  match inside m q k below, inside m q k above with
  | false, false => none
  | true, false => some below
  | false, true => some above
  | true, true =>
    let down := value - below * gridFactor k q
    let up := above * gridFactor k q - value
    if down < up then some below
    else if up < down then some above
    else if below % 2 = 0 then some below else some above

/-- Try the grids `10 ^ k`, `10 ^ (k - 1)`, … in turn. -/
def search (m : Nat) (q : Int) : Nat → Int → Decimal
  | 0, k => ⟨0, k⟩
  | steps + 1, k =>
    match onGrid? m q k with
    | some c => ⟨c, k⟩
    | none => search m q steps (k - 1)

/-- The shortest decimal of `m · 2 ^ q`. The first grid is coarser than the double, and the grid
`10 ^ q` of a negative `q` holds the double itself. -/
def decimal (m : Nat) (q : Int) : Decimal :=
  let whole := m * twoPow q.toNat / twoPow (-q).toNat
  let top := (Nat.toDigits 10 whole).length
  search m q (top + 1 + (-q).toNat) top

end LiveDoc.Shortest
