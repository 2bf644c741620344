import LiveDoc.Proofs.Rounding

/-! # Doubles of whole numbers

A whole number of 64 bits becomes the double nearest to it. Rounding keeps numbers in order, and such doubles
are compared as the whole numbers that they are.
-/

namespace LiveDoc

open Float.Model Float.Model.UnpackedFloat

variable {n m k : Nat} {e : Int} {s : Sign} {u v : UnpackedFloat}

/-! ## Packed doubles -/

theorem toNat_one_append (v : BitVec 52) : (1#1 ++ v).toNat = 2 ^ 52 + v.toNat := by
  rw [BitVec.toNat_append, ← Nat.shiftLeft_add_eq_or_of_lt v.isLt]
  rfl

theorem unpackSign_packComponents {spec : Format} {s : Sign} {exponent mantissa} :
    unpackSign (packComponents spec s exponent mantissa) = s.toBitVec := by
  apply BitVec.eq_of_getLsbD_eq
  intro i hi
  obtain rfl : i = 0 := by omega
  simp [unpackSign, packComponents, BitVec.getLsbD_append, BitVec.getElem_append]

theorem ofBitVec_toBitVec (s : Sign) : Sign.ofBitVec s.toBitVec = s := by
  cases s <;> rfl

theorem unpack_pack_zero (s : Sign) : (Float.Model.pack (.zero s)).unpack = .zero s := by
  cases s <;> rfl

/-- The exponent that is packed. -/
def biased (e : Int) : BitVec 11 :=
  BitVec.ofNat 11 (e + 1075).toNat

theorem toNat_biased (he : -1074 ≤ e) (he' : e ≤ 971) : ((biased e).toNat : Int) = e + 1075 := by
  rw [biased, BitVec.toNat_ofNat, Nat.mod_eq_of_lt (by omega)]
  omega

theorem biased_ne_ones (he : e ≤ 971) : biased e ≠ -1#11 := by
  intro h
  have hnat := congrArg BitVec.toNat h
  rw [biased, BitVec.toNat_ofNat, Nat.mod_eq_of_lt (by omega)] at hnat
  have hones : (-1#11).toNat = 2047 := rfl
  omega

theorem biased_ne_zero (he : -1074 ≤ e) (he' : e ≤ 971) : biased e ≠ 0#11 := by
  intro h
  have hnat := toNat_biased he he'
  rw [h, BitVec.toNat_zero] at hnat
  omega

theorem pack_finite (hm : 0 < m) (he : e ≤ 971) :
    UnpackedFloat.pack .binary64 (.finite s m e hm) = packComponents .binary64 s
      (if m.log2 = 52 then biased e else 0#11) (BitVec.ofNat 52 m) := by
  show (if 2 ^ 11 ≤ (e + 1023 + 52).toNat + 1 then packedInfinity .binary64 s
    else if m.log2 + 1 = 53 then
      packComponents .binary64 s (BitVec.ofNat 11 (e + 1023 + 52).toNat) (BitVec.ofNat 52 m)
    else packComponents .binary64 s 0#11 (BitVec.ofNat 52 m)) = _
  have hbiased : (e + 1023 + 52).toNat = (e + 1075).toNat := by omega
  rw [if_neg (by omega), hbiased, biased]
  split
  · rw [if_pos (by omega)]
  · rw [if_neg (by omega)]

/-- A double with all its digits is read back as it was packed. -/
theorem unpack_pack_finite (hm : 0 < m) (hlow : 2 ^ 52 ≤ m) (hhigh : m < 2 ^ 53) (he : -1074 ≤ e)
    (he' : e ≤ 971) : (Float.Model.pack (.finite s m e hm)).unpack = .finite s m e hm := by
  have hlog : m.log2 = 52 := (Nat.log2_eq_iff hm.ne').2 ⟨hlow, hhigh⟩
  have hmantissa : (1#1 ++ BitVec.ofNat 52 m).toNat = m := by
    rw [toNat_one_append, BitVec.toNat_ofNat]
    omega
  have hexponent : ((biased e).toNat : Int) - (1023 + 52) = e := by
    rw [toNat_biased he he']
    omega
  show UnpackedFloat.unpack .binary64 (UnpackedFloat.pack .binary64 (.finite s m e hm)) = _
  rw [pack_finite hm he', if_pos hlog, UnpackedFloat.unpack]
  simp only [unpackExponent_packComponents, unpackMantissa_packComponents, unpackSign_packComponents,
    ofBitVec_toBitVec, if_neg (biased_ne_ones he'), if_neg (biased_ne_zero he he')]
  congr 1

theorem isFinite_unpack {b : BitVec 64} (h : @unpackExponent .binary64 b ≠ -1#11) :
    (UnpackedFloat.unpack .binary64 b).isFinite := by
  rw [UnpackedFloat.unpack]
  simp only [if_neg h]
  split
  · split <;> rfl
  · rfl

theorem isFinite_pack (h : Bounded 971 u) : (Float.ofModel (.pack u)).isFinite := by
  show (UnpackedFloat.unpack .binary64 (UnpackedFloat.pack .binary64 u)).isFinite
  apply isFinite_unpack
  cases h with
  | zero s => cases s <;> decide
  | finite s hm he =>
    rw [pack_finite hm he, unpackExponent_packComponents]
    split
    · exact biased_ne_ones he
    · decide

/-! ## Whole numbers as doubles -/

/-- The doubles that whole numbers of 64 bits are rounded to. -/
inductive Whole : UnpackedFloat → Prop
  | zero (s : Sign) : Whole (.zero s)
  | finite (s : Sign) {m : Nat} {e : Int} (hm : 0 < m) (hlow : 2 ^ 52 ≤ m) (hhigh : m < 2 ^ 53)
      (he : -52 ≤ e) (he' : e ≤ 13) : Whole (.finite s m e hm)

theorem Whole.unpack_pack (h : Whole u) : (Float.Model.pack u).unpack = u := by
  cases h with
  | zero s => exact unpack_pack_zero s
  | finite s hm hlow hhigh he he' => exact unpack_pack_finite hm hlow hhigh (by omega) (by omega)

theorem Whole.neg (h : Whole u) : Whole u.neg := by
  cases h with
  | zero s => exact .zero (-s)
  | finite s hm hlow hhigh he he' => exact .finite (-s) hm hlow hhigh he he'

/-- A number with zeros for the digits that it lacks of 53. -/
def filled (n : Nat) : Nat :=
  n * 2 ^ (52 - n.log2)

theorem filled_pos (hn : 0 < n) : 0 < filled n :=
  Nat.mul_pos hn (Nat.two_pow_pos _)

theorem log2_filled (hn : 0 < n) : (filled n).log2 = 52 + (n.log2 - 52) := by
  rw [filled, log2_mul_two_pow hn]
  omega

theorem filled_of_le (h : 52 ≤ n.log2) : filled n = n := by
  rw [filled, Nat.sub_eq_zero_of_le h, Nat.pow_zero, Nat.mul_one]

/-- The double of a positive number: its digits are filled up to 53 or rounded to as many. -/
def magnitude (n : Nat) : UnpackedFloat :=
  carried .positive (halfEven (filled n) (n.log2 - 52)) (n.log2 - 52 : Int)

theorem two_pow_le_halfEven (hm : 0 < m) (hlog : m.log2 = 52 + k) : 2 ^ 52 ≤ halfEven m k := by
  apply le_trans _ (div_le_halfEven m k)
  rw [Nat.le_div_iff_mul_le (Nat.two_pow_pos k), ← Nat.pow_add, ← hlog]
  exact Nat.log2_self_le hm.ne'

theorem halfEven_le_two_pow (hlog : m.log2 = 52 + k) : halfEven m k ≤ 2 ^ 53 := by
  have hlt : m / 2 ^ k < 2 ^ 53 := by
    rw [Nat.div_lt_iff_lt_mul (Nat.two_pow_pos k), ← Nat.pow_add]
    have hself := Nat.lt_log2_self (n := m)
    rwa [hlog, Nat.add_right_comm] at hself
  have hle := halfEven_le_div_add_one m k
  omega

theorem whole_carried {r : Nat} (hlow : 2 ^ 52 ≤ r) (he : -52 ≤ e) (he' : e ≤ 12) :
    Whole (carried s r e) := by
  unfold carried
  split
  · exact .zero s
  · split
    · next hlt => exact .finite s _ hlow hlt he (by omega)
    · exact .finite s _ le_rfl (by decide) (by omega) (by omega)

theorem whole_magnitude (hn : 0 < n) (h : n.log2 ≤ 64) : Whole (magnitude n) := by
  apply whole_carried
  · exact two_pow_le_halfEven (filled_pos hn) (log2_filled hn)
  · omega
  · omega

/-- A number of at most 53 digits keeps them all. -/
theorem magnitude_of_lt (hn : 0 < n) (h : n < 2 ^ 53) :
    magnitude n = .finite .positive (filled n) (n.log2 - 52) (filled_pos hn) := by
  have hlog := log2_le_of_lt h
  have hfilled := log2_filled hn
  rw [Nat.sub_eq_zero_of_le hlog, Nat.log2_eq_iff (filled_pos hn).ne'] at hfilled
  rw [magnitude, Nat.sub_eq_zero_of_le hlog, halfEven_zero, carried, dif_neg (filled_pos hn).ne',
    if_pos hfilled.2]

theorem unpackedOfNat_eq (hn : 0 < n) : UnpackedFloat.ofNat .binary64 n = magnitude n := by
  have hshift : (0 - lastDigit n 0).toNat = 52 - n.log2 := by
    unfold lastDigit
    omega
  rw [UnpackedFloat.ofNat, UnpackedFloat.ofInt, UnpackedFloat.normalize,
    compare_gt_iff_gt.2 (Int.natCast_pos.2 hn)]
  show UnpackedFloat.round .binary64 .positive n 0 = magnitude n
  rw [round_eq, hshift, ← filled, roundWithAccuracy_exact .positive (log2_filled hn) (by omega), magnitude]
  congr 1
  omega

theorem unpack_toFloat (hn : 0 < n) (h : n < 2 ^ 53) :
    n.toUInt64.toFloat.toModel.unpack = magnitude n := by
  have hnat : n.toUInt64.toNat = n := by
    rw [Nat.toUInt64_eq, UInt64.toNat_ofNat']
    omega
  have hlog := log2_le_of_lt h
  show (Float.Model.pack (UnpackedFloat.ofNat .binary64 n.toUInt64.toNat)).unpack = _
  rw [hnat, unpackedOfNat_eq hn, (whole_magnitude hn (by omega)).unpack_pack]

/-- Multiplying by one changes nothing. -/
theorem magnitude_mul_one (hn : 0 < n) (h : n < 2 ^ 53) : UnpackedFloat.mul .binary64 (magnitude n)
    (.finite .positive (2 ^ 52) (-52) (Nat.two_pow_pos 52)) = magnitude n := by
  have hlog := log2_le_of_lt h
  have hfilled := log2_filled hn
  have hlong : (filled n * 2 ^ 52).log2 = 52 + 52 := by
    rw [log2_mul_two_pow (filled_pos hn)]
    omega
  have hback := halfEven_mul_two_pow (filled n) 0 52
  conv_lhs => rw [magnitude_of_lt hn h]
  show roundWithAccuracy .binary64 .positive (filled n * 2 ^ 52) (n.log2 - 52 + -52) .exact = _
  rw [Nat.zero_add] at hback
  rw [roundWithAccuracy_exact .positive hlong (by omega), hback, magnitude, Nat.sub_eq_zero_of_le hlog]
  congr 1
  omega

/-- A number of at most 53 digits is converted by itself and multiplied by the zeroth power of ten. -/
theorem ofNat_of_lt (h : n < 2 ^ 53) : Float.ofNat n = .ofModel (.pack (UnpackedFloat.mul .binary64
    n.toUInt64.toFloat.toModel.unpack (.finite .positive (2 ^ 52) (-52) (Nat.two_pow_pos 52)))) := by
  have hone : (Float.ofBits 0x3FF0000000000000).toModel.unpack =
      .finite .positive (2 ^ 52) (-52) (Nat.two_pow_pos 52) := rfl
  rw [← hone]
  show Float.ofScientific n false 0 = _
  rw [Float.ofScientific, dif_pos ⟨h, Nat.zero_le _⟩]
  rfl

/-- A larger number is rounded once, with zeros added that rounding cuts off again. -/
theorem ofNat_of_le (h : 2 ^ 53 ≤ n) : Float.ofNat n = .ofModel (.pack
    (roundWithAccuracy .binary64 .positive (n * 2 ^ 53) (-53) .exact)) := by
  show Float.ofScientific n false 0 = _
  rw [Float.ofScientific, dif_neg (by omega)]
  have hexponents : (0 : Int) ≤ 2 ^ Format.binary64.exponentBits := by decide
  show Float.ofModel (.pack (UnpackedFloat.ofScientific .binary64 n 0)) = _
  rw [UnpackedFloat.ofScientific, dif_neg (by omega), if_neg (by decide), if_neg (by omega),
    if_pos le_rfl]
  show Float.ofModel (.pack (roundWithAccuracy .binary64 .positive (n <<< 53 * 1) (-53) .exact)) = _
  rw [Nat.mul_one, Nat.shiftLeft_eq]

theorem unpack_ofNat (hn : 0 < n) (h : n.log2 ≤ 64) : (Float.ofNat n).toModel.unpack = magnitude n := by
  have hwhole := whole_magnitude hn h
  rcases Nat.lt_or_ge n (2 ^ 53) with hlt | hge
  · rw [ofNat_of_lt hlt, unpack_toFloat hn hlt, magnitude_mul_one hn hlt]
    exact hwhole.unpack_pack
  · have hlog : 53 ≤ n.log2 := (Nat.le_log2 hn.ne').2 hge
    have hlong : (n * 2 ^ 53).log2 = 52 + (n.log2 - 52 + 53) := by
      rw [log2_mul_two_pow hn]
      omega
    have hsame : magnitude n = carried .positive (halfEven n (n.log2 - 52))
        (-53 + (n.log2 - 52 + 53 : Nat)) := by
      rw [magnitude, filled_of_le (by omega)]
      congr 1
      omega
    rw [ofNat_of_le hge, roundWithAccuracy_exact .positive hlong (by omega), halfEven_mul_two_pow,
      ← hsame]
    exact hwhole.unpack_pack

/-- The double of a whole number. -/
def wholeDouble : Int → UnpackedFloat
  | .ofNat 0 => .zero .positive
  | .ofNat (n + 1) => magnitude (n + 1)
  | .negSucc n => (magnitude (n + 1)).neg

variable {i j : Int}

theorem whole_wholeDouble (h : i.natAbs.log2 ≤ 64) : Whole (wholeDouble i) := by
  match i with
  | .ofNat 0 => exact .zero .positive
  | .ofNat (n + 1) => exact whole_magnitude n.succ_pos h
  | .negSucc n => exact (whole_magnitude n.succ_pos h).neg

theorem unpack_ofInt (h : i.natAbs.log2 ≤ 64) : (Float.ofInt i).toModel.unpack = wholeDouble i := by
  match i with
  | .ofNat 0 => rfl
  | .ofNat (n + 1) => exact unpack_ofNat n.succ_pos h
  | .negSucc n =>
    show (Float.Model.pack (Float.ofNat (n + 1)).toModel.unpack.neg).unpack = _
    rw [unpack_ofNat n.succ_pos h]
    exact (whole_magnitude n.succ_pos h).neg.unpack_pack

theorem whole_ofInt (h : i.natAbs.log2 ≤ 64) : Whole (Float.ofInt i).toModel.unpack := by
  rw [unpack_ofInt h]
  exact whole_wholeDouble h

/-! ## What a double comes to -/

/-- A double in units of `2 ^ -52`. -/
def units : UnpackedFloat → Int
  | .finite s m e _ => s.apply (m * 2 ^ (e + 52).toNat : Nat)
  | _ => 0

theorem apply_neg (s : Sign) (z : Int) : (-s).apply z = -s.apply z := by
  cases s with
  | negative => exact (neg_neg z).symm
  | positive => rfl

theorem units_neg (u : UnpackedFloat) : units u.neg = -units u := by
  cases u with
  | finite s m e hm => exact apply_neg s _
  | _ => rfl

theorem two_pow_carry (k : Nat) : 2 ^ 52 * 2 ^ (k + 1) = 2 ^ 53 * 2 ^ k := by
  rw [← Nat.pow_add, ← Nat.pow_add]
  congr 1
  omega

theorem units_carried {r : Nat} (hr : r ≤ 2 ^ 53) (he : -52 ≤ e) :
    units (carried s r e) = s.apply (r * 2 ^ (e + 52).toNat : Nat) := by
  unfold carried
  split
  · next hzero =>
    rw [hzero, Nat.zero_mul]
    cases s <;> rfl
  · split
    · rfl
    · have hfull : r = 2 ^ 53 := by omega
      have hexp : (e + 1 + 52).toNat = (e + 52).toNat + 1 := by omega
      rw [units, hfull, hexp, two_pow_carry]

/-- Doubles with all their digits are ordered by their exponents first. -/
theorem compare_parts {m₁ m₂ : Nat} {e₁ e₂ : Int} (hlow₁ : 2 ^ 52 ≤ m₁) (hhigh₁ : m₁ < 2 ^ 53)
    (hlow₂ : 2 ^ 52 ≤ m₂) (hhigh₂ : m₂ < 2 ^ 53) (he₁ : -52 ≤ e₁) (he₂ : -52 ≤ e₂) :
    (compare e₁ e₂).then (compare m₁ m₂) =
      compare (m₁ * 2 ^ (e₁ + 52).toNat) (m₂ * 2 ^ (e₂ + 52).toNat) := by
  have hless {m m' a b : Nat} (hm : m < 2 ^ 53) (hm' : 2 ^ 52 ≤ m') (hab : a < b) :
      m * 2 ^ a < m' * 2 ^ b := by
    calc m * 2 ^ a < 2 ^ 53 * 2 ^ a := Nat.mul_lt_mul_of_pos_right hm (Nat.two_pow_pos a)
      _ = 2 ^ 52 * 2 ^ (a + 1) := (two_pow_carry a).symm
      _ ≤ m' * 2 ^ b := Nat.mul_le_mul hm' (Nat.pow_le_pow_right (by decide) hab)
  rcases lt_trichotomy e₁ e₂ with h | rfl | h
  · rw [compare_lt_iff_lt.2 h, compare_lt_iff_lt.2 (hless hhigh₁ hlow₂ (by omega))]
    rfl
  · rw [compare_eq_iff_eq.2 rfl, ← cmp_eq_compare, ← cmp_eq_compare,
      cmp_mul_pos_right (Nat.two_pow_pos _)]
    rfl
  · rw [compare_gt_iff_gt.2 h, compare_gt_iff_gt.2 (hless hhigh₂ hlow₁ (by omega))]
    rfl

theorem compare_natCast (a b : Nat) : compare (a : Int) b = compare a b := by
  rw [← cmp_eq_compare, ← cmp_eq_compare]
  exact Int.natCast_strictMono.cmp_map_eq a b

theorem compare_neg_natCast (a b : Nat) : compare (-a : Int) (-b) = compare b a := by
  rw [← compare_natCast, ← cmp_eq_compare, ← cmp_eq_compare]
  exact (StrictAnti.cmp_map_eq (fun _ _ => Int.neg_lt_neg) (a : Int) b)

/-- Finite doubles are compared by what they come to. -/
theorem compare_eq_compare_units (hu : Whole u) (hv : Whole v) :
    u.compare v = some (compare (units u) (units v)) := by
  have hpos {m : Nat} (hm : 0 < m) (k : Nat) : (0 : Int) < (m * 2 ^ k : Nat) :=
    Int.natCast_pos.2 (Nat.mul_pos hm (Nat.two_pow_pos k))
  have hneg {m : Nat} (hm : 0 < m) (k : Nat) : -((m * 2 ^ k : Nat) : Int) < 0 :=
    Int.neg_neg_of_pos (hpos hm k)
  cases hu with
  | zero s₁ =>
    cases hv with
    | zero s₂ => rfl
    | finite s₂ hm₂ =>
      cases s₂ with
      | negative => exact congrArg some (compare_gt_iff_gt.2 (hneg hm₂ _)).symm
      | positive => exact congrArg some (compare_lt_iff_lt.2 (hpos hm₂ _)).symm
  | finite s₁ hm₁ hlow₁ hhigh₁ he₁ =>
    cases hv with
    | zero s₂ =>
      cases s₁ with
      | negative => exact congrArg some (compare_lt_iff_lt.2 (hneg hm₁ _)).symm
      | positive => exact congrArg some (compare_gt_iff_gt.2 (hpos hm₁ _)).symm
    | finite s₂ hm₂ hlow₂ hhigh₂ he₂ =>
      have hparts := compare_parts hlow₁ hhigh₁ hlow₂ hhigh₂ he₁ he₂
      cases s₁ with
      | negative =>
        cases s₂ with
        | negative =>
          simp only [UnpackedFloat.compare, units, Sign.apply, compare_neg_natCast, hparts]
          exact congrArg some Std.OrientedCmp.eq_swap.symm
        | positive => exact congrArg some (compare_lt_iff_lt.2 ((hneg hm₁ _).trans (hpos hm₂ _))).symm
      | positive =>
        cases s₂ with
        | negative => exact congrArg some (compare_gt_iff_gt.2 ((hneg hm₂ _).trans (hpos hm₁ _))).symm
        | positive => simp only [UnpackedFloat.compare, units, Sign.apply, compare_natCast, hparts]

/-! ## The nearest double -/

/-- A number as the nearest double has it, from halfway between two as the one with the even mantissa. -/
def nearestNat (n : Nat) : Nat :=
  halfEven n (n.log2 - 52) * 2 ^ (n.log2 - 52)

/-- A whole number as the nearest double has it. -/
def nearest (i : Int) : Int :=
  i.sign * nearestNat i.natAbs

theorem units_magnitude (hn : 0 < n) : units (magnitude n) = (nearestNat n * 2 ^ 52 : Nat) := by
  have hexp : ((n.log2 - 52 : Int) + 52).toNat = n.log2 := by omega
  rw [magnitude, units_carried (halfEven_le_two_pow (log2_filled hn)) (by omega), hexp, Sign.apply,
    nearestNat]
  rcases le_total n.log2 52 with h | h
  · rw [Nat.sub_eq_zero_of_le h, halfEven_zero, halfEven_zero, Nat.pow_zero, Nat.mul_one, filled,
      Nat.mul_assoc, ← Nat.pow_add, Nat.sub_add_cancel h]
  · rw [filled_of_le h, Nat.mul_assoc, ← Nat.pow_add, Nat.sub_add_cancel h]

theorem units_wholeDouble (i : Int) : units (wholeDouble i) = nearest i * 2 ^ 52 := by
  match i with
  | .ofNat 0 => rfl
  | .ofNat (n + 1) =>
    rw [wholeDouble, units_magnitude n.succ_pos]
    show _ = (1 * (nearestNat (n + 1) : Int)) * 2 ^ 52
    push_cast
    ring
  | .negSucc n =>
    rw [wholeDouble, units_neg, units_magnitude n.succ_pos]
    show _ = (-1 * (nearestNat (n + 1) : Int)) * 2 ^ 52
    push_cast
    ring

theorem nearestNat_of_log2_le (h : n.log2 ≤ 52) : nearestNat n = n := by
  rw [nearestNat, Nat.sub_eq_zero_of_le h, halfEven_zero, Nat.pow_zero, Nat.mul_one]

theorem nearestNat_of_lt (h : n < 2 ^ 53) : nearestNat n = n :=
  nearestNat_of_log2_le (log2_le_of_lt h)

/-- Rounding does not lead out of the powers of two around a number. -/
theorem nearestNat_bounds (hn : 0 < n) :
    2 ^ n.log2 ≤ nearestNat n ∧ nearestNat n ≤ 2 ^ (n.log2 + 1) := by
  rcases le_total n.log2 52 with h | h
  · rw [nearestNat_of_log2_le h]
    exact ⟨Nat.log2_self_le hn.ne', Nat.lt_log2_self.le⟩
  · have hlog : n.log2 = 52 + (n.log2 - 52) := by omega
    have hup : 53 + (n.log2 - 52) = n.log2 + 1 := by omega
    constructor
    · calc 2 ^ n.log2 = 2 ^ 52 * 2 ^ (n.log2 - 52) := by rw [← Nat.pow_add, ← hlog]
        _ ≤ nearestNat n := Nat.mul_le_mul_right _ (two_pow_le_halfEven hn hlog)
    · calc nearestNat n ≤ 2 ^ 53 * 2 ^ (n.log2 - 52) := Nat.mul_le_mul_right _ (halfEven_le_two_pow hlog)
        _ = 2 ^ (n.log2 + 1) := by rw [← Nat.pow_add, hup]

theorem nearestNat_mono (h : n ≤ m) : nearestNat n ≤ nearestNat m := by
  rcases Nat.eq_zero_or_pos n with rfl | hn
  · exact Nat.zero_le _
  · have hm : 0 < m := hn.trans_le h
    have hle : n.log2 ≤ m.log2 := (Nat.le_log2 hm.ne').2 ((Nat.log2_self_le hn.ne').trans h)
    rcases hle.eq_or_lt with heq | hlt
    · rw [nearestNat, nearestNat, heq]
      exact Nat.mul_le_mul_right _ (halfEven_mono _ h)
    · calc nearestNat n ≤ 2 ^ (n.log2 + 1) := (nearestNat_bounds hn).2
        _ ≤ 2 ^ m.log2 := Nat.pow_le_pow_right (by decide) hlt
        _ ≤ nearestNat m := (nearestNat_bounds hm).1

theorem nearest_natCast (n : Nat) : nearest n = nearestNat n := by
  rcases Nat.eq_zero_or_pos n with rfl | hn
  · rfl
  · rw [nearest, Int.sign_natCast_of_ne_zero hn.ne', Int.one_mul, Int.natAbs_natCast]

theorem nearest_neg (i : Int) : nearest (-i) = -nearest i := by
  rw [nearest, Int.sign_neg, Int.natAbs_neg, Int.neg_mul, nearest]

/-- Rounding keeps numbers in order. -/
theorem nearest_mono (h : i ≤ j) : nearest i ≤ nearest j := by
  obtain ⟨n, rfl | rfl⟩ := i.eq_nat_or_neg <;> obtain ⟨m, rfl | rfl⟩ := j.eq_nat_or_neg
  all_goals simp only [nearest_neg, nearest_natCast]
  · exact Int.ofNat_le.2 (nearestNat_mono (by omega))
  · have hn : n = 0 := by omega
    have hm : m = 0 := by omega
    rw [hn, hm]
    rfl
  · omega
  · have hle := nearestNat_mono (n := m) (m := n) (by omega)
    omega

theorem nearest_of_natAbs_lt (h : i.natAbs < 2 ^ 53) : nearest i = i := by
  rw [nearest, nearestNat_of_lt h, Int.sign_mul_natAbs]

theorem natAbs_nearest (i : Int) : (nearest i).natAbs = nearestNat i.natAbs := by
  obtain ⟨n, rfl | rfl⟩ := i.eq_nat_or_neg
  · rw [nearest_natCast, Int.natAbs_natCast, Int.natAbs_natCast]
  · rw [nearest_neg, nearest_natCast, Int.natAbs_neg, Int.natAbs_neg, Int.natAbs_natCast,
      Int.natAbs_natCast]

/-- The nearest double is at most half the distance of two doubles away. -/
theorem two_mul_natAbs_nearest_sub_le (i : Int) :
    2 * (nearest i - i).natAbs ≤ 2 ^ (i.natAbs.log2 - 52) := by
  have hnear := halfEven_near i.natAbs (i.natAbs.log2 - 52)
  change 2 * i.natAbs ≤ 2 * nearestNat i.natAbs + _ ∧ 2 * nearestNat i.natAbs ≤ _ at hnear
  obtain ⟨n, rfl | rfl⟩ := i.eq_nat_or_neg
  · rw [nearest_natCast]
    simp only [Int.natAbs_natCast] at hnear ⊢
    omega
  · rw [nearest_neg, nearest_natCast]
    simp only [Int.natAbs_neg, Int.natAbs_natCast] at hnear ⊢
    omega

/-- A number of at most 53 digits is the only one with its double. -/
theorem eq_of_nearest_eq (hi : i.natAbs < 2 ^ 53) (h : nearest i = nearest j) : i = j := by
  rcases Nat.lt_or_ge j.natAbs (2 ^ 53) with hj | hj
  · rwa [nearest_of_natAbs_lt hi, nearest_of_natAbs_lt hj] at h
  · have hlarge : 2 ^ 53 ≤ nearestNat j.natAbs := nearestNat_mono hj
    rw [← natAbs_nearest, ← h, nearest_of_natAbs_lt hi] at hlarge
    omega

/-! ## Comparisons -/

theorem beq_eq_compare (f g : Float) :
    (f == g) = (f.toModel.unpack.compare g.toModel.unpack == some .eq) :=
  rfl

theorem lt_iff_compare (f g : Float) :
    f < g ↔ f.toModel.unpack.compare g.toModel.unpack = some .lt := by
  show decide ((f.toModel.unpack.compare g.toModel.unpack == some .lt) = true) = true ↔ _
  rw [decide_eq_true_iff, beq_iff_eq]

/-- Doubles of whole numbers are compared as the whole numbers that they are. -/
theorem compare_ofInt (hi : i.natAbs.log2 ≤ 64) (hj : j.natAbs.log2 ≤ 64) :
    (Float.ofInt i).toModel.unpack.compare (Float.ofInt j).toModel.unpack =
      some (compare (nearest i) (nearest j)) := by
  rw [unpack_ofInt hi, unpack_ofInt hj, compare_eq_compare_units (whole_wholeDouble hi)
    (whole_wholeDouble hj), units_wholeDouble, units_wholeDouble, ← cmp_eq_compare, ← cmp_eq_compare,
    cmp_mul_pos_right (by decide)]

end LiveDoc
