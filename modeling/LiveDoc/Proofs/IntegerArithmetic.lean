import LiveDoc.Evaluation.Operator
import LiveDoc.Proofs.Doubles

/-! # Arithmetic on whole numbers

Sums, differences, products and negations of whole numbers are whole while they fit in 64 bits with a sign,
quotients also need to be exact, and remainders are always whole but for one. What is not whole is the finite
double that the same operation gives on the doubles of both sides.
-/

namespace LiveDoc

open Float.Model Float.Model.UnpackedFloat

variable {m k : Nat} {e a b : Int} {s : Sign} {u v : UnpackedFloat}

/-! ## Operations on doubles of whole numbers -/

theorem Whole.bounded (h : Whole u) : Bounded 971 u := by
  cases h with
  | zero s => exact .zero s
  | finite s hm hlow hhigh he he' => exact .finite s hm (by omega)

theorem natAbs_apply (s : Sign) (n : Nat) : (s.apply (n : Int)).natAbs = n := by
  cases s <;> simp [Sign.apply]

/-- Two mantissas with one exponent. -/
theorem decreaseExponent_lt {e' : Int} (hm : m < 2 ^ 53) (he : -52 ≤ e') (he' : e ≤ 13) :
    (decreaseExponent m e e').1 < 2 ^ 118 := by
  rw [decreaseExponent, Nat.shiftLeft_eq]
  calc m * 2 ^ (e - e').toNat < 2 ^ 53 * 2 ^ (e - e').toNat :=
        Nat.mul_lt_mul_of_pos_right hm (Nat.two_pow_pos _)
    _ ≤ 2 ^ 53 * 2 ^ 65 := Nat.mul_le_mul_left _ (Nat.pow_le_pow_right (by decide) (by omega))
    _ = 2 ^ 118 := by rw [← Nat.pow_add]

theorem bounded_add (hu : Whole u) (hv : Whole v) : Bounded 971 (UnpackedFloat.add .binary64 u v) := by
  cases hu with
  | zero s₁ =>
    cases hv with
    | zero s₂ =>
      rw [UnpackedFloat.add]
      split <;> exact .zero _
    | finite s₂ hm hlow hhigh he he' => exact .finite s₂ hm (by omega)
  | @finite s₁ m₁ e₁ hm₁ hlow₁ hhigh₁ he₁ he₁' =>
    cases hv with
    | zero s₂ => exact .finite s₁ hm₁ (by omega)
    | @finite s₂ m₂ e₂ hm₂ hlow₂ hhigh₂ he₂ he₂' =>
      have hlt₁ := decreaseExponent_lt hhigh₁ (le_min he₁ he₂) he₁'
      have hlt₂ := decreaseExponent_lt hhigh₂ (le_min he₁ he₂) he₂'
      have habs₁ := natAbs_apply s₁ (decreaseExponent m₁ e₁ (min e₁ e₂)).1
      have habs₂ := natAbs_apply s₂ (decreaseExponent m₂ e₂ (min e₁ e₂)).1
      have hsum : (s₁.apply (decreaseExponent m₁ e₁ (min e₁ e₂)).1 +
          s₂.apply (decreaseExponent m₂ e₂ (min e₁ e₂)).1).natAbs < 2 ^ 119 := by omega
      exact bounded_normalize hsum .positive (by omega) (by omega)

theorem sub_eq_add_neg_of_whole (hu : Whole u) (hv : Whole v) :
    UnpackedFloat.sub .binary64 u v = UnpackedFloat.add .binary64 u v.neg := by
  cases hu with
  | zero s₁ => cases hv <;> rfl
  | finite s₁ hm₁ =>
    cases hv with
    | zero s₂ => rfl
    | finite s₂ hm₂ =>
      simp only [UnpackedFloat.sub, UnpackedFloat.neg, UnpackedFloat.add, apply_neg, Int.sub_eq_add_neg]

theorem bounded_sub (hu : Whole u) (hv : Whole v) : Bounded 971 (UnpackedFloat.sub .binary64 u v) := by
  rw [sub_eq_add_neg_of_whole hu hv]
  exact bounded_add hu hv.neg

theorem bounded_mul (hu : Whole u) (hv : Whole v) : Bounded 971 (UnpackedFloat.mul .binary64 u v) := by
  cases hu with
  | zero s₁ =>
    cases hv with
    | zero s₂ => exact .zero _
    | finite s₂ hm₂ => exact .zero _
  | finite s₁ hm₁ hlow₁ hhigh₁ he₁ he₁' =>
    cases hv with
    | zero s₂ => exact .zero _
    | finite s₂ hm₂ hlow₂ hhigh₂ he₂ he₂' =>
      have hlt := Nat.mul_lt_mul'' hhigh₁ hhigh₂
      rw [← Nat.pow_add] at hlt
      exact bounded_roundWithAccuracy _ .exact hlt (by omega) (by omega) (by omega)

theorem divCore_eq {m₁ m₂ : Nat} {e₁ e₂ : Int} (h₁ : m₁.log2 = 52) (h₂ : m₂.log2 = 52)
    (he : -1021 ≤ e₁ - e₂) : divCore .binary64 m₁ e₁ m₂ e₂ =
      (m₁ <<< 53 / m₂, e₁ - e₂ - 53, accuracyOfFraction (m₁ <<< 53 % m₂) m₂) := by
  have htarget : min (e₁ - e₂) (Format.binary64.targetExponent
      (totalExponent m₁ e₁ - totalExponent m₂ e₂)) = e₁ - e₂ - 53 := by
    simp only [Format.targetExponent, totalExponent, Format.mantissaBits, Format.minExponent, h₁, h₂]
    norm_num
    omega
  have hshift : (e₁ - e₂ - (e₁ - e₂ - 53)).toNat = 53 := by omega
  simp only [divCore, htarget, hshift]

theorem bounded_div (hu : Whole u) (hv : Whole v) (hne : ∀ s, v ≠ .zero s) :
    Bounded 971 (UnpackedFloat.div .binary64 u v) := by
  cases hv with
  | zero s₂ => exact absurd rfl (hne s₂)
  | @finite s₂ m₂ e₂ hm₂ hlow₂ hhigh₂ he₂ he₂' =>
    cases hu with
    | zero s₁ => exact .zero _
    | @finite s₁ m₁ e₁ hm₁ hlow₁ hhigh₁ he₁ he₁' =>
      have hlog₁ : m₁.log2 = 52 := (Nat.log2_eq_iff hm₁.ne').2 ⟨hlow₁, hhigh₁⟩
      have hlog₂ : m₂.log2 = 52 := (Nat.log2_eq_iff hm₂.ne').2 ⟨hlow₂, hhigh₂⟩
      -- Both mantissas have 53 digits, so the dividend is widened by 53 digits and no more.
      have hquotient : m₁ <<< 53 / m₂ < 2 ^ 106 := by
        apply (Nat.div_le_self _ _).trans_lt
        rw [Nat.shiftLeft_eq]
        omega
      rw [UnpackedFloat.div, divCore_eq hlog₁ hlog₂ (by omega)]
      exact bounded_roundWithAccuracy _ _ hquotient (by omega) (by omega) (by omega)

/-! ## Finite results -/

section

variable {f g : Float} (hf : Whole f.toModel.unpack) (hg : Whole g.toModel.unpack)
include hf

theorem isFinite_neg : (-f).isFinite :=
  isFinite_pack hf.neg.bounded

include hg

theorem isFinite_add : (f + g).isFinite :=
  isFinite_pack (bounded_add hf hg)

theorem isFinite_sub : (f - g).isFinite :=
  isFinite_pack (bounded_sub hf hg)

theorem isFinite_mul : (f * g).isFinite :=
  isFinite_pack (bounded_mul hf hg)

theorem isFinite_div (hne : ∀ s, g.toModel.unpack ≠ .zero s) : (f / g).isFinite :=
  isFinite_pack (bounded_div hf hg hne)

end

theorem log2_le_of_fitsSigned (h : Numeral.fitsSigned a) : a.natAbs.log2 ≤ 64 := by
  simp only [Numeral.fitsSigned, Bool.and_eq_true, decide_eq_true_iff] at h
  exact log2_le_of_lt (by omega)

theorem whole_of_fitsSigned (h : Numeral.fitsSigned a) : Whole (Float.ofInt a).toModel.unpack :=
  whole_ofInt (log2_le_of_fitsSigned h)

theorem unpack_ne_zero (hb : Numeral.fitsSigned b) (hne : b ≠ 0) (s : Sign) :
    (Float.ofInt b).toModel.unpack ≠ .zero s := by
  intro h
  have hunits := units_wholeDouble b
  rw [← unpack_ofInt (log2_le_of_fitsSigned hb), h] at hunits
  change 0 = nearest b * 2 ^ 52 at hunits
  have hnearest : nearest 0 = nearest b := by
    show 0 = nearest b
    omega
  exact hne (eq_of_nearest_eq (by decide) hnearest).symm

/-! ## Results -/

/-- A whole number if it fits, else a double. -/
def wholeOr (i : Int) (f : Float) : Number :=
  if Numeral.fitsSigned i then .int i else .float f

namespace Operator

theorem ofFloat_of_isFinite {f : Float} (h : f.isFinite) : ofFloat f = .ok (.num (.float f)) :=
  if_pos h

theorem operands_ints (op : BinaryOp) (ha : Numeral.fitsSigned a) (hb : Numeral.fitsSigned b) :
    operands op (.num (.int a)) (.num (.int b)) = .ok (.int a, .int b) := by
  simp only [operands, Operand.ofValue?, Operand.ofNumber, if_pos ha, if_pos hb]

/-- Arithmetic on whole numbers gives the whole result or the finite double. -/
theorem arithmetic_ints (whole : Int → Int → Option Int) (double : Float → Float → Float)
    (h : whole a b = none → (double (Float.ofInt a) (Float.ofInt b)).isFinite) :
    arithmetic whole double (.int a) (.int b) =
      .ok (.num ((whole a b).elim (.float (double (Float.ofInt a) (Float.ofInt b))) .int)) := by
  rw [arithmetic]
  cases hw : whole a b with
  | none => simp only [Operand.toFloat, ofFloat_of_isFinite (h hw), Option.elim]
  | some i => simp only [Option.elim]

theorem elim_fitting (i : Int) (f : Float) : (fitting i).elim (.float f) .int = wholeOr i f := by
  unfold fitting wholeOr
  split <;> rfl

theorem isZero_int_iff (hb : Numeral.fitsSigned b) : (Operand.int b).isZero ↔ b = 0 := by
  have hzero : (0.0 : Float) = Float.ofInt 0 := rfl
  rw [Operand.isZero, Operand.toFloat, hzero, beq_eq_compare, beq_iff_eq,
    compare_ofInt (log2_le_of_fitsSigned hb) (by decide), Option.some_inj, compare_eq_iff_eq]
  constructor
  · intro h
    exact (eq_of_nearest_eq (by decide) h.symm).symm
  · rintro rfl
    rfl

/-- The quotient of two numbers that fit does as well, but for that of the least number and minus one. -/
theorem fitsSigned_tdiv_iff (ha : Numeral.fitsSigned a) (hb : b ≠ 0) :
    Numeral.fitsSigned (a.tdiv b) ↔ ¬ (a = -2 ^ 63 ∧ b = -1) := by
  simp only [Numeral.fitsSigned, Bool.and_eq_true, decide_eq_true_iff] at ha ⊢
  have habs : (a.tdiv b).natAbs = a.natAbs / b.natAbs := Int.natAbs_tdiv a b
  rcases Nat.lt_or_ge 1 b.natAbs with hlarge | hsmall
  · -- Here the quotient is at most half as large; only the divisors 1 and -1 remain.
    have hhalf : a.natAbs / b.natAbs ≤ a.natAbs / 2 := Nat.div_le_div_left hlarge (by decide)
    omega
  · have hone : b = 1 ∨ b = -1 := by omega
    rcases hone with rfl | rfl
    · rw [Int.tdiv_one]
      omega
    · rw [Int.tdiv_neg, Int.tdiv_one]
      omega

/-- Zero is the only whole number whose double is zero. -/
theorem division_ints (whole : Int → Int → Option Int) (double : Float → Float → Float)
    (hb : Numeral.fitsSigned b) : division whole double (.int a) (.int b) =
      if b = 0 then .error .divisionByZero else arithmetic whole double (.int a) (.int b) := by
  rw [division]
  by_cases hzero : b = 0
  · rw [if_pos ((isZero_int_iff hb).2 hzero), if_pos hzero]
  · rw [if_neg (mt (isZero_int_iff hb).1 hzero), if_neg hzero]

/-- The remainder of the least number and minus one is that of the doubles, for the quotient does not fit. -/
theorem rem_least : arithmetic wholeRemainder floatRemainder (.int (-2 ^ 63)) (.int (-1)) =
    .ok (.num (.float (-0.0))) := by
  have hwhole : wholeRemainder (-2 ^ 63) (-1) = none := rfl
  have hdouble : floatRemainder (Float.ofInt (-2 ^ 63)) (Float.ofInt (-1)) = -0.0 := rfl
  have hfinite : (-0.0 : Float).isFinite := rfl
  rw [arithmetic_ints _ _ (fun _ => hdouble ▸ hfinite), hwhole, hdouble, Option.elim]

theorem rem_ints (ha : Numeral.fitsSigned a) (hb : Numeral.fitsSigned b) :
    binary .rem (.num (.int a)) (.num (.int b)) =
      if b = 0 then .error .divisionByZero
      else if a = -2 ^ 63 ∧ b = -1 then .ok (.num (.float (-0.0)))
      else .ok (.num (.int (a.tmod b))) := by
  simp only [binary, operands_ints _ ha hb]
  refine (division_ints wholeRemainder floatRemainder hb).trans ?_
  split
  · rfl
  · next hzero =>
    have hfits := fitsSigned_tdiv_iff ha hzero
    split
    · next hleast =>
      obtain ⟨rfl, rfl⟩ := hleast
      exact rem_least
    · next hother =>
      have hwhole : wholeRemainder a b = some (a.tmod b) := by
        rw [wholeRemainder, fitting, if_pos (hfits.2 hother), Option.map_some]
      rw [arithmetic_ints _ _ (by rw [hwhole]; simp), hwhole, Option.elim]

theorem div_ints (ha : Numeral.fitsSigned a) (hb : Numeral.fitsSigned b) :
    binary .div (.num (.int a)) (.num (.int b)) =
      if b = 0 then .error .divisionByZero
      else if b ∣ a then .ok (.num (wholeOr (a.tdiv b) (Float.ofInt a / Float.ofInt b)))
      else .ok (.num (.float (Float.ofInt a / Float.ofInt b))) := by
  simp only [binary, operands_ints _ ha hb]
  refine (division_ints exactQuotient (· / ·) hb).trans ?_
  split
  · rfl
  · next hzero =>
    have hfinite := isFinite_div (whole_of_fitsSigned ha) (whole_of_fitsSigned hb) (unpack_ne_zero hb hzero)
    rw [arithmetic_ints _ _ fun _ => hfinite, exactQuotient]
    simp only [← Int.dvd_iff_tmod_eq_zero]
    split
    · rw [elim_fitting]
    · rfl

theorem neg_int (ha : Numeral.fitsSigned a) :
    unary .neg (.num (.int a)) = .ok (.num (wholeOr (-a) (-Float.ofInt a))) := by
  simp only [unary, Operand.ofValue?, Operand.ofNumber, if_pos ha]
  rw [← elim_fitting]
  cases fitting (-a) with
  | none => exact ofFloat_of_isFinite (isFinite_neg (whole_of_fitsSigned ha))
  | some j => rfl

/-- Operations on two whole numbers that fit: sums, differences, products and negations are whole if they fit,
and so are quotients that are exact; else they are those of the doubles. Remainders are whole but for one, and
dividing by zero is the only error. -/
theorem integer_arithmetic (ha : Numeral.fitsSigned a) (hb : Numeral.fitsSigned b) :
    binary .add (.num (.int a)) (.num (.int b)) =
        .ok (.num (wholeOr (a + b) (Float.ofInt a + Float.ofInt b))) ∧
      binary .sub (.num (.int a)) (.num (.int b)) =
        .ok (.num (wholeOr (a - b) (Float.ofInt a - Float.ofInt b))) ∧
      binary .mul (.num (.int a)) (.num (.int b)) =
        .ok (.num (wholeOr (a * b) (Float.ofInt a * Float.ofInt b))) ∧
      binary .div (.num (.int a)) (.num (.int b)) =
        (if b = 0 then .error .divisionByZero
        else if b ∣ a then .ok (.num (wholeOr (a.tdiv b) (Float.ofInt a / Float.ofInt b)))
        else .ok (.num (.float (Float.ofInt a / Float.ofInt b)))) ∧
      binary .rem (.num (.int a)) (.num (.int b)) =
        (if b = 0 then .error .divisionByZero
        else if a = -2 ^ 63 ∧ b = -1 then .ok (.num (.float (-0.0)))
        else .ok (.num (.int (a.tmod b)))) ∧
      unary .neg (.num (.int a)) = .ok (.num (wholeOr (-a) (-Float.ofInt a))) := by
  have hf := whole_of_fitsSigned ha
  have hg := whole_of_fitsSigned hb
  have hadd := arithmetic_ints (fun a b => fitting (a + b)) (· + ·) fun _ => isFinite_add hf hg
  have hsub := arithmetic_ints (fun a b => fitting (a - b)) (· - ·) fun _ => isFinite_sub hf hg
  have hmul := arithmetic_ints (fun a b => fitting (a * b)) (· * ·) fun _ => isFinite_mul hf hg
  rw [elim_fitting] at hadd hsub hmul
  refine ⟨?_, ?_, ?_, div_ints ha hb, rem_ints ha hb, neg_int ha⟩
  · rw [← hadd]
    simp only [binary, add, operands_ints _ ha hb]
    rfl
  · rw [← hsub]
    simp only [binary, operands_ints _ ha hb]
    rfl
  · rw [← hmul]
    simp only [binary, operands_ints _ ha hb]
    rfl

/-- The least number and minus one: the difference fits, the quotient does not. -/
theorem least_arithmetic : Numeral.fitsSigned (-2 ^ 63) ∧ Numeral.fitsSigned (-1) ∧
    binary .sub (.num (.int (-2 ^ 63))) (.num (.int (-1))) = .ok (.num (.int (1 - 2 ^ 63))) ∧
    binary .div (.num (.int (-2 ^ 63))) (.num (.int (-1))) =
      .ok (.num (.float (Float.ofInt (-2 ^ 63) / Float.ofInt (-1)))) := by
  have ha : Numeral.fitsSigned (-2 ^ 63) := by decide
  have hb : Numeral.fitsSigned (-1) := by decide
  obtain ⟨-, hsub, -, hdiv, -⟩ := integer_arithmetic ha hb
  exact ⟨ha, hb, hsub, hdiv⟩

/-- The remainder of the least number and minus one is zero, but a double. -/
theorem least_remainder_not_whole :
    binary .rem (.num (.int (-2 ^ 63))) (.num (.int (-1))) = .ok (.num (.float (-0.0))) ∧
      Int.tmod (-2 ^ 63) (-1) = 0 ∧ Numeral.fitsSigned 0 ∧
      Value.num (.float (-0.0)) ≠ Value.num (.int 0) := by
  have hrem := rem_ints (a := -2 ^ 63) (b := -1) (by decide) (by decide)
  rw [if_neg (by decide), if_pos ⟨rfl, rfl⟩] at hrem
  exact ⟨hrem, by decide, by decide, by simp⟩

end Operator

end LiveDoc
