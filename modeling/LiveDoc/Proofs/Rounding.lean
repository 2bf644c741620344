import Mathlib

/-! # Rounding to doubles

A double has 53 binary digits. Digits that are too many are cut off and what is left is rounded, to the even
number where it lies halfway; then one digit may be too many again, and it is a zero.
-/

namespace LiveDoc

open Float.Model Float.Model.UnpackedFloat

/-! ## Cutting off digits -/

/-- A number without its last binary digits, rounded to the nearest and from halfway to the even one. -/
def halfEven (n k : Nat) : Nat :=
  if 2 * (n % 2 ^ k) < 2 ^ k then n / 2 ^ k
  else if 2 ^ k < 2 * (n % 2 ^ k) then n / 2 ^ k + 1
  else n / 2 ^ k + n / 2 ^ k % 2

variable {n m k : Nat} {e : Int} {s : Sign}

@[simp]
theorem halfEven_zero (n : Nat) : halfEven n 0 = n := by
  simp [halfEven, Nat.mod_one]

theorem div_le_halfEven (n k : Nat) : n / 2 ^ k ≤ halfEven n k := by
  unfold halfEven
  split
  · exact le_rfl
  · split <;> omega

theorem halfEven_le_div_add_one (n k : Nat) : halfEven n k ≤ n / 2 ^ k + 1 := by
  unfold halfEven
  split
  · omega
  · split <;> omega

/-- Zeros that are added to a number are cut off again. -/
theorem halfEven_mul_two_pow (n k j : Nat) : halfEven (n * 2 ^ j) (k + j) = halfEven n k := by
  have hpos : 0 < 2 ^ j := Nat.two_pow_pos j
  have hless (a b : Nat) : 2 * (a * 2 ^ j) < b * 2 ^ j ↔ 2 * a < b := by
    rw [← Nat.mul_assoc, Nat.mul_lt_mul_right hpos]
  have hmore (a b : Nat) : b * 2 ^ j < 2 * (a * 2 ^ j) ↔ b < 2 * a := by
    rw [← Nat.mul_assoc, Nat.mul_lt_mul_right hpos]
  simp only [halfEven, Nat.pow_add, Nat.mul_mod_mul_right, Nat.mul_div_mul_right _ _ hpos, hless, hmore]

theorem halfEven_mono (k : Nat) (h : n ≤ m) : halfEven n k ≤ halfEven m k := by
  -- Rounding up reaches at most the next quotient, so only equal quotients need a look at what is cut off.
  rcases Nat.lt_or_ge (n / 2 ^ k) (m / 2 ^ k) with hlt | hge
  · have hn := halfEven_le_div_add_one n k
    have hm := div_le_halfEven m k
    omega
  · have hdiv : n / 2 ^ k = m / 2 ^ k := le_antisymm (Nat.div_le_div_right h) hge
    have hmod : n % 2 ^ k ≤ m % 2 ^ k := by
      have hn := Nat.div_add_mod n (2 ^ k)
      have hm := Nat.div_add_mod m (2 ^ k)
      rw [hdiv] at hn
      omega
    unfold halfEven
    rw [hdiv]
    split <;> split <;> (try split) <;> (try split) <;> omega

/-- What is left lies within half a unit of the number. -/
theorem halfEven_near (n k : Nat) :
    2 * n ≤ 2 * (halfEven n k * 2 ^ k) + 2 ^ k ∧ 2 * (halfEven n k * 2 ^ k) ≤ 2 * n + 2 ^ k := by
  have hdiv := Nat.div_add_mod n (2 ^ k)
  have hmod := Nat.mod_lt n (Nat.two_pow_pos k)
  unfold halfEven
  split
  · rw [Nat.mul_comm (n / 2 ^ k)]
    omega
  · split
    · rw [Nat.add_mul, Nat.one_mul, Nat.mul_comm (n / 2 ^ k)]
      omega
    · rcases Nat.mod_two_eq_zero_or_one (n / 2 ^ k) with heven | hodd
      · rw [heven, Nat.add_zero, Nat.mul_comm (n / 2 ^ k)]
        omega
      · rw [hodd, Nat.add_mul, Nat.one_mul, Nat.mul_comm (n / 2 ^ k)]
        omega

/-! ## The digits behind the mantissa -/

theorem shiftRight_succ (em : ExtendedMantissa) (k : Nat) :
    em >>> (k + 1) = (em >>> k).shiftRightOne :=
  rfl

theorem mantissa_shiftRight (em : ExtendedMantissa) (k : Nat) :
    (em >>> k).mantissa = em.mantissa / 2 ^ k := by
  induction k with
  | zero =>
    rw [Nat.pow_zero, Nat.div_one]
    rfl
  | succ k ih =>
    rw [shiftRight_succ, ExtendedMantissa.shiftRightOne, ih, Nat.div_div_eq_div_mul, Nat.pow_succ]

theorem roundedMantissa_le (em : ExtendedMantissa) : em.roundedMantissa ≤ em.mantissa + 1 := by
  obtain ⟨m, round, sticky⟩ := em
  cases round <;> cases sticky <;>
    simp only [ExtendedMantissa.roundedMantissa, ExtendedMantissa.accuracy,
      Accuracy.roundToNearestEven] <;> omega

/-- The two bits that are kept of the digits cut off tell how these compare with one half. -/
theorem shiftRight_exact (m k : Nat) : ExtendedMantissa.ofMantissaAndAccuracy m .exact >>> k =
    ⟨m / 2 ^ k, 2 ^ k ≤ 2 * (m % 2 ^ k), 2 * (m % 2 ^ k) ≠ 0 ∧ 2 * (m % 2 ^ k) ≠ 2 ^ k⟩ := by
  induction k with
  | zero =>
    simp [Nat.mod_one]
    rfl
  | succ k ih =>
    have hmod : m % 2 ^ (k + 1) = m % 2 ^ k + 2 ^ k * (m / 2 ^ k % 2) := Nat.mod_pow_succ
    have hlt := Nat.mod_lt m (Nat.two_pow_pos k)
    have hbit := Nat.mod_two_eq_zero_or_one (m / 2 ^ k)
    rw [shiftRight_succ, ih, ExtendedMantissa.shiftRightOne, ExtendedMantissa.mk.injEq, hmod,
      Nat.div_div_eq_div_mul, Nat.pow_succ]
    refine ⟨rfl, ?_, ?_⟩
    · rw [Bool.eq_iff_iff]
      simp only [bne_iff_ne, decide_eq_true_iff]
      rcases hbit with h | h <;> rw [h] <;> omega
    · rw [Bool.eq_iff_iff]
      simp only [Bool.or_eq_true, decide_eq_true_iff]
      rcases hbit with h | h <;> rw [h] <;> omega

theorem roundedMantissa_exact (m k : Nat) :
    (ExtendedMantissa.ofMantissaAndAccuracy m .exact >>> k).roundedMantissa = halfEven m k := by
  have hpos := Nat.two_pow_pos k
  rw [shiftRight_exact, halfEven, ExtendedMantissa.roundedMantissa]
  rcases Nat.lt_trichotomy (2 * (m % 2 ^ k)) (2 ^ k) with h | h | h
  · rw [if_pos h, decide_eq_false (by omega)]
    cases decide (2 * (m % 2 ^ k) ≠ 0 ∧ 2 * (m % 2 ^ k) ≠ 2 ^ k) <;> rfl
  · rw [if_neg (by omega), if_neg (by omega), decide_eq_true (by omega), decide_eq_false (by omega)]
    rfl
  · rw [if_neg (by omega), if_pos h, decide_eq_true (by omega), decide_eq_true (by omega)]
    rfl

/-! ## Rounding -/

/-- The exponent of the last digit that is kept. -/
def lastDigit (m : Nat) (e : Int) : Int :=
  max (m.log2 + e - 52) (-1074)

theorem targetExponent_eq (m : Nat) (e : Int) :
    Format.binary64.targetExponent (totalExponent m e) = lastDigit m e := by
  simp only [Format.targetExponent, totalExponent, Format.mantissaBits, Format.minExponent, lastDigit]
  norm_num
  omega

theorem log2_le_lastDigit (m : Nat) (e : Int) : m.log2 ≤ 52 + (lastDigit m e - e).toNat := by
  unfold lastDigit
  omega

theorem log2_le_of_lt (h : n < 2 ^ (k + 1)) : n.log2 ≤ k := by
  rcases Nat.eq_zero_or_pos n with rfl | hn
  · exact Nat.zero_le k
  · exact Nat.le_of_lt_succ ((Nat.log2_lt hn.ne').2 h)

theorem shiftToTargetExponent_eq (m : Nat) (e : Int) (a : Accuracy) :
    shiftToTargetExponent .binary64 m e a = (ExtendedMantissa.ofMantissaAndAccuracy m a >>>
      (lastDigit m e - e).toNat, e + (lastDigit m e - e).toNat) := by
  rw [shiftToTargetExponent, targetExponent_eq]
  rfl

/-- What has no digit too many is left as it is. -/
theorem shiftToTargetExponent_of_lt (hm : m < 2 ^ 53) (he : -1074 ≤ e) :
    shiftToTargetExponent .binary64 m e .exact = (⟨m, false, false⟩, e) := by
  have hlog : m.log2 ≤ 52 := log2_le_of_lt hm
  have hshift : (lastDigit m e - e).toNat = 0 := by
    unfold lastDigit
    omega
  rw [shiftToTargetExponent_eq, hshift, Nat.cast_zero, add_zero]
  rfl

theorem shiftToTargetExponent_two_pow (he : -1074 ≤ e) :
    shiftToTargetExponent .binary64 (2 ^ 53) e .exact = (⟨2 ^ 52, false, false⟩, e + 1) := by
  have hshift : (lastDigit (2 ^ 53) e - e).toNat = 1 := by
    rw [lastDigit, Nat.log2_two_pow]
    omega
  rw [shiftToTargetExponent_eq, hshift]
  rfl

/-- A rounded mantissa as a double; one that has got a digit too many loses it. -/
def carried (s : Sign) (r : Nat) (e : Int) : UnpackedFloat :=
  if h : r = 0 then .zero s
  else if r < 2 ^ 53 then .finite s r e (Nat.pos_of_ne_zero h)
  else .finite s (2 ^ 52) (e + 1) (Nat.two_pow_pos 52)

theorem carried_eq {r : Nat} (s : Sign) (hr : r ≤ 2 ^ 53) (he : -1074 ≤ e) :
    (if h : (shiftToTargetExponent .binary64 r e .exact).1.mantissa = 0 then .zero s
      else .finite s (shiftToTargetExponent .binary64 r e .exact).1.mantissa
        (shiftToTargetExponent .binary64 r e .exact).2 (Nat.pos_of_ne_zero h)) = carried s r e := by
  unfold carried
  rcases Nat.lt_or_eq_of_le hr with hlt | rfl
  · simp only [shiftToTargetExponent_of_lt hlt he, if_pos hlt]
  · simp only [shiftToTargetExponent_two_pow he]
    rfl

/-- At most 53 digits are kept. -/
theorem roundedMantissa_shift_le (m : Nat) (e : Int) (a : Accuracy) :
    (ExtendedMantissa.ofMantissaAndAccuracy m a >>> (lastDigit m e - e).toNat).roundedMantissa ≤
      2 ^ 53 := by
  have hmantissa : (ExtendedMantissa.ofMantissaAndAccuracy m a).mantissa = m := by
    cases a with
    | exact => rfl
    | inexact o => cases o <;> rfl
  have hround := roundedMantissa_le (ExtendedMantissa.ofMantissaAndAccuracy m a >>>
    (lastDigit m e - e).toNat)
  have hlt : m / 2 ^ (lastDigit m e - e).toNat < 2 ^ 53 := by
    have hlog := log2_le_lastDigit m e
    rw [Nat.div_lt_iff_lt_mul (Nat.two_pow_pos _), ← Nat.pow_add]
    exact Nat.lt_log2_self.trans_le (Nat.pow_le_pow_right (by decide) (by omega))
  rw [mantissa_shiftRight, hmantissa] at hround
  omega

/-- Rounding cuts off the digits behind the last one that is kept. -/
theorem roundWithAccuracy_eq (s : Sign) (m : Nat) (e : Int) (a : Accuracy) :
    roundWithAccuracy .binary64 s m e a =
      carried s (ExtendedMantissa.ofMantissaAndAccuracy m a >>>
        (lastDigit m e - e).toNat).roundedMantissa (e + (lastDigit m e - e).toNat) := by
  have he : -1074 ≤ e + (lastDigit m e - e).toNat := by
    unfold lastDigit
    omega
  rw [roundWithAccuracy, shiftToTargetExponent_eq, ← carried_eq s (roundedMantissa_shift_le m e a) he]

/-- A number that is too long by some digits is rounded to even behind them. -/
theorem roundWithAccuracy_exact (s : Sign) (hm : m.log2 = 52 + k) (he : -1074 ≤ e + k) :
    roundWithAccuracy .binary64 s m e .exact = carried s (halfEven m k) (e + k) := by
  have hshift : (lastDigit m e - e).toNat = k := by
    unfold lastDigit
    omega
  rw [roundWithAccuracy_eq, hshift, roundedMantissa_exact]

/-! ## Exponents -/

theorem log2_mul_two_pow (hm : 0 < m) (k : Nat) : (m * 2 ^ k).log2 = m.log2 + k := by
  rw [Nat.log2_eq_iff (Nat.mul_pos hm (Nat.two_pow_pos k)).ne', Nat.add_right_comm, Nat.pow_add, Nat.pow_add]
  exact ⟨Nat.mul_le_mul_right _ (Nat.log2_self_le hm.ne'),
    Nat.mul_lt_mul_of_pos_right Nat.lt_log2_self (Nat.two_pow_pos k)⟩

/-- Rounding starts from as many digits as are kept, if there are fewer. -/
theorem round_eq (s : Sign) (m : Nat) (e : Int) : UnpackedFloat.round .binary64 s m e =
    roundWithAccuracy .binary64 s (m * 2 ^ (e - lastDigit m e).toNat) (e - (e - lastDigit m e).toNat)
      .exact := by
  rw [UnpackedFloat.round, targetExponent_eq, decreaseExponent, Nat.shiftLeft_eq]

/-- A finite double whose exponent is at most the given one. -/
inductive Bounded (e : Int) : UnpackedFloat → Prop
  | zero (s : Sign) : Bounded e (.zero s)
  | finite (s : Sign) {m : Nat} {e' : Int} (hm : 0 < m) (he : e' ≤ e) : Bounded e (.finite s m e' hm)

theorem lastDigit_lt (hm : m < 2 ^ k) {b : Int} (hk : k + e < b + 52) (hb : -1074 < b) :
    lastDigit m e < b := by
  have hlog : m.log2 ≤ k := log2_le_of_lt (hm.trans (Nat.pow_lt_pow_succ (by decide)))
  unfold lastDigit
  omega

theorem bounded_roundWithAccuracy (s : Sign) (a : Accuracy) (hm : m < 2 ^ k) {b : Int} (he : e < b)
    (hk : k + e < b + 52) (hb : -1074 < b) : Bounded b (roundWithAccuracy .binary64 s m e a) := by
  have hlast := lastDigit_lt hm hk hb
  rw [roundWithAccuracy_eq, carried]
  split
  · exact .zero s
  · split <;> exact .finite s _ (by omega)

theorem bounded_round (s : Sign) (hm : m < 2 ^ k) {b : Int} (hk : k + e < b + 52) (hb : -1074 < b) :
    Bounded b (UnpackedFloat.round .binary64 s m e) := by
  have hlast := lastDigit_lt hm hk hb
  rw [round_eq]
  apply bounded_roundWithAccuracy (k := k + (e - lastDigit m e).toNat) _ _ _ _ _ hb
  · rw [Nat.pow_add]
    exact Nat.mul_lt_mul_of_pos_right hm (Nat.two_pow_pos _)
  · omega
  · omega

theorem bounded_normalize {z : Int} (hz : z.natAbs < 2 ^ k) (zeroSign : Sign) {b : Int}
    (hk : k + e < b + 52) (hb : -1074 < b) : Bounded b (UnpackedFloat.normalize .binary64 z e zeroSign) := by
  unfold UnpackedFloat.normalize
  split
  · exact bounded_round _ (by omega) hk hb
  · exact .zero zeroSign
  · exact bounded_round _ (by omega) hk hb

end LiveDoc
