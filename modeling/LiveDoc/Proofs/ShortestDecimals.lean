import LiveDoc.Number.Shortest
import Mathlib.Algebra.Order.Field.Basic
import Mathlib.Data.Rat.Cast.Order
import Mathlib.Tactic.Positivity
import Mathlib.Tactic.Ring

/-! # Shortest decimals

The numbers that round to a double form an interval, and the intervals of different doubles are
disjoint. The shortest decimal of a double lies in its interval, and so tells which double it is.
-/

namespace LiveDoc.Shortest

/-- The number that a decimal writes. -/
def Decimal.value (d : Decimal) : ℚ :=
  d.digits * 10 ^ d.exponent

/-- `m · 2 ^ q` as a double holds it: a mantissa of 53 bits, with a leading one unless the exponent
is the least. -/
structure Normal (m : Nat) (q : Int) : Prop where
  mantissa : m < 2 ^ 53
  exponent : -1074 ≤ q
  leading : 2 ^ 52 ≤ m ∨ q = -1074

/-- A number rounds to `m · 2 ^ q`. The ends of the interval do so if the mantissa is even. -/
structure Rounds (m : Nat) (q : Int) (x : ℚ) : Prop where
  low : (lowerEnd m q : ℚ) * 2 ^ (q - 2) ≤ x
  high : x ≤ upperEnd m * 2 ^ (q - 2)
  odd : m % 2 = 1 → (lowerEnd m q : ℚ) * 2 ^ (q - 2) < x ∧ x < upperEnd m * 2 ^ (q - 2)

variable {m m' : Nat} {q q' k : Int} {c e : Nat} {x : ℚ}

/-! ## The grids -/

theorem pow_toNat {b : ℚ} (hb : b ≠ 0) (z : Int) : b ^ z.toNat = b ^ z * b ^ (-z).toNat := by
  rw [← zpow_natCast, ← zpow_natCast, ← zpow_add₀ hb]
  congr 1
  omega

/-- Multiples of `10 ^ k` and of `2 ^ (q - 2)` have a common unit. -/
theorem exists_unit (k q : Int) : ∃ u : ℚ, 0 < u ∧
    (gridFactor k q : ℚ) = 10 ^ k * u ∧ (quarterFactor k q : ℚ) = 2 ^ (q - 2) * u := by
  refine ⟨10 ^ (-k).toNat * 2 ^ (2 - q).toNat, by positivity, ?_, ?_⟩
  · rw [gridFactor, tenPow, twoPow, Nat.pow_eq, Nat.pow_eq]
    push_cast
    rw [pow_toNat (by norm_num) k, mul_assoc]
  · rw [quarterFactor, tenPow, twoPow, Nat.pow_eq, Nat.pow_eq]
    push_cast
    rw [pow_toNat (by norm_num) (q - 2), neg_sub]
    ring

theorem grid_le_quarters_iff :
    c * gridFactor k q ≤ e * quarterFactor k q ↔ (c : ℚ) * 10 ^ k ≤ e * 2 ^ (q - 2) := by
  obtain ⟨u, hu, hgrid, hquarter⟩ := exists_unit k q
  rw [← Nat.cast_le (α := ℚ), Nat.cast_mul, Nat.cast_mul, hgrid, hquarter, ← mul_assoc, ← mul_assoc,
    mul_le_mul_iff_left₀ hu]

theorem quarters_le_grid_iff :
    e * quarterFactor k q ≤ c * gridFactor k q ↔ (e : ℚ) * 2 ^ (q - 2) ≤ c * 10 ^ k := by
  obtain ⟨u, hu, hgrid, hquarter⟩ := exists_unit k q
  rw [← Nat.cast_le (α := ℚ), Nat.cast_mul, Nat.cast_mul, hgrid, hquarter, ← mul_assoc, ← mul_assoc,
    mul_le_mul_iff_left₀ hu]

/-- A point inside is a decimal that rounds to the double. -/
theorem rounds_of_inside (h : inside m q k c = true) : Rounds m q (c * 10 ^ k) := by
  unfold inside at h
  dsimp only at h
  split at h
  · next heven =>
    simp only [Bool.and_eq_true, decide_eq_true_eq, quarters_le_grid_iff, grid_le_quarters_iff] at h
    exact ⟨h.1, h.2, fun hodd => absurd (heven.symm.trans hodd) (by decide)⟩
  · simp only [Bool.and_eq_true, decide_eq_true_eq, ← Nat.not_le, quarters_le_grid_iff,
      grid_le_quarters_iff] at h
    obtain ⟨hlow, hhigh⟩ := h
    rw [not_le] at hlow hhigh
    exact ⟨hlow.le, hhigh.le, fun _ => ⟨hlow, hhigh⟩⟩

theorem inside_of_onGrid? (h : onGrid? m q k = some c) : inside m q k c = true := by
  unfold onGrid? at h
  dsimp only at h
  split at h
  · cases h
  · next hbelow _ => cases h; exact hbelow
  · next _ habove => cases h; exact habove
  · next hbelow habove =>
    split_ifs at h <;> cases h <;> assumption

/-- A grid with the double itself on it has a point inside. -/
theorem isSome_onGrid?_of_dvd (hm : 0 < m) (h : gridFactor k q ∣ 4 * m * quarterFactor k q) :
    (onGrid? m q k).isSome = true := by
  have hquarter : 0 < quarterFactor k q := by
    simp [quarterFactor, twoPow, tenPow]
  have hlow : lowerEnd m q < 4 * m := by
    unfold lowerEnd
    split <;> omega
  have hinside : inside m q k (4 * m * quarterFactor k q / gridFactor k q) = true := by
    unfold inside
    dsimp only
    rw [Nat.div_mul_cancel h]
    have hbelow := Nat.mul_lt_mul_of_pos_right hlow hquarter
    have habove : 4 * m * quarterFactor k q < upperEnd m * quarterFactor k q :=
      Nat.mul_lt_mul_of_pos_right (by unfold upperEnd; omega) hquarter
    split <;> simp [hbelow, habove, hbelow.le, habove.le]
  unfold onGrid?
  dsimp only
  rw [hinside]
  cases inside m q k (4 * m * quarterFactor k q / gridFactor k q + 1) with
  | false => rfl
  | true =>
    dsimp only
    split_ifs <;> rfl

/-- The double is on the grid `10 ^ q` if `q` is negative, and on the grid of whole numbers if
not. -/
theorem isSome_onGrid?_last (hm : 0 < m) (q : Int) :
    (onGrid? m q (-(-q).toNat)).isSome = true := by
  refine isSome_onGrid?_of_dvd hm ?_
  simp only [gridFactor, quarterFactor, tenPow, twoPow, Nat.pow_eq]
  rcases Int.le_total q 0 with hq | hq
  · obtain ⟨n, rfl⟩ : ∃ n : Nat, q = -n := ⟨(-q).toNat, by omega⟩
    refine ⟨m * 5 ^ n, ?_⟩
    rw [show (-(n : Int) - 2).toNat = 0 by omega, show (- -(n : Int)).toNat = n by omega,
      show (-(n : Int)).toNat = 0 by omega, show (2 - -(n : Int)).toNat = 2 + n by omega,
      show (- -(n : Int)).toNat = n by omega, show 10 = 2 * 5 by rfl, Nat.mul_pow, Nat.pow_add]
    ring
  · obtain ⟨n, rfl⟩ : ∃ n : Nat, q = n := ⟨q.toNat, by omega⟩
    refine ⟨2 ^ n * m, ?_⟩
    have hpow : 2 ^ 2 * 2 ^ ((n : Int) - 2).toNat = 2 ^ (2 - (n : Int)).toNat * 2 ^ n := by
      rw [← Nat.pow_add, ← Nat.pow_add]
      congr 1
      omega
    simp only [show (-(n : Int)).toNat = 0 by omega, Nat.cast_zero, neg_zero, Int.toNat_zero,
      pow_zero, Nat.mul_one, Nat.one_mul]
    rw [← Nat.mul_assoc, ← hpow]
    ring

/-! ## The search -/

/-- The search ends on a grid with a point inside if it comes to one. -/
theorem rounds_search {steps j : Nat} (hj : j < steps) (h : (onGrid? m q (k - j)).isSome = true) :
    Rounds m q (search m q steps k).value := by
  induction steps generalizing k j with
  | zero => cases hj
  | succ steps ih =>
    rw [search]
    split
    · next c hc => exact rounds_of_inside (inside_of_onGrid? hc)
    · next hnone =>
      cases j with
      | zero => simp [hnone] at h
      | succ j =>
        refine ih (Nat.lt_of_succ_lt_succ hj) ?_
        rwa [show k - 1 - (j : Int) = k - ((j + 1 : Nat) : Int) by omega]

theorem rounds_decimal (hm : 0 < m) (q : Int) : Rounds m q (decimal m q).value := by
  unfold decimal
  dsimp only
  generalize (Nat.toDigits 10 _).length = top
  refine rounds_search (j := top + (-q).toNat) (by omega) ?_
  have hlast := isSome_onGrid?_last hm q
  rwa [show (-(-q).toNat : Int) = top - ((top + (-q).toNat : Nat) : Int) by omega] at hlast

/-! ## Disjoint intervals -/

theorem Rounds.pos (hm : 0 < m) (h : Rounds m q x) : 0 < x := by
  refine lt_of_lt_of_le ?_ h.low
  have hlow : 0 < lowerEnd m q := by
    unfold lowerEnd
    split <;> omega
  exact mul_pos (Nat.cast_pos.2 hlow) (zpow_pos (by norm_num) _)

/-- If a number rounds to two doubles, the interval of the second begins where that of the first
ends, or before; and before if one of the ends does not count. -/
theorem Rounds.ends_le {n : Nat} (h : Rounds m q x) (h' : Rounds m' (q + n) x) :
    lowerEnd m' (q + n) * 2 ^ n ≤ upperEnd m ∧
      (m % 2 = 1 ∨ m' % 2 = 1 → lowerEnd m' (q + n) * 2 ^ n < upperEnd m) := by
  have hu : (0 : ℚ) < 2 ^ (q - 2) := zpow_pos (by norm_num) _
  have hpower : (2 : ℚ) ^ (q + n - 2) = 2 ^ n * 2 ^ (q - 2) := by
    rw [← zpow_natCast, ← zpow_add₀ (by norm_num)]
    congr 1
    omega
  have hlow := h'.low
  have hodd := h'.odd
  rw [hpower, ← mul_assoc] at hlow hodd
  constructor
  · have hle := (mul_le_mul_iff_left₀ hu).1 (hlow.trans h.high)
    exact_mod_cast hle
  · intro hone
    have hlt : ((lowerEnd m' (q + n) : ℚ) * 2 ^ n) * 2 ^ (q - 2) < upperEnd m * 2 ^ (q - 2) := by
      rcases hone with hm | hm
      · exact hlow.trans_lt (h.odd hm).2
      · exact (hodd hm).1.trans_le h.high
    have hlt := (mul_lt_mul_iff_left₀ hu).1 hlt
    exact_mod_cast hlt

/-- Nothing rounds to a double and to a greater one. -/
theorem Rounds.not_lt (hn : Normal m q) (hn' : Normal m' q') (h : Rounds m q x)
    (h' : Rounds m' q' x) : ¬ (q < q' ∨ q = q' ∧ m < m') := by
  have hmantissa := hn.mantissa
  rintro (hlt | ⟨rfl, hlt⟩)
  · -- The mantissa of the greater has a leading one, that of the smaller ends below it.
    obtain ⟨n, rfl⟩ : ∃ n : Nat, q' = q + n := ⟨(q' - q).toNat, by omega⟩
    obtain ⟨hle, hstrict⟩ := h.ends_le h'
    have hleading := hn'.leading
    have hexponent := hn.exponent
    have hpow : 2 ^ 1 ≤ 2 ^ n := Nat.pow_le_pow_right (by decide) (by omega)
    have hmul := Nat.mul_le_mul_left (lowerEnd m' (q + n)) hpow
    unfold upperEnd at hle hstrict
    have hlow : 2 ^ 54 - 1 ≤ lowerEnd m' (q + n) := by
      rw [lowerEnd, twoPow, Nat.pow_eq]
      split <;> omega
    omega
  · obtain ⟨hle, hstrict⟩ := h.ends_le (n := 0) (by simpa using h')
    have hlow : 4 * m' - 2 ≤ lowerEnd m' (q + (0 : Nat)) := by
      unfold lowerEnd
      split <;> omega
    unfold upperEnd at hle hstrict
    omega

/-- A number rounds to one double only. -/
theorem Rounds.unique (hn : Normal m q) (hn' : Normal m' q') (h : Rounds m q x)
    (h' : Rounds m' q' x) : m = m' ∧ q = q' := by
  have hle := h.not_lt hn hn' h'
  have hge := h'.not_lt hn' hn h
  omega

end LiveDoc.Shortest
