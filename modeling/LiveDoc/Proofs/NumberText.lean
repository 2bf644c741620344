import LiveDoc.Json.Writer
import LiveDoc.Proofs.Numerals
import LiveDoc.Proofs.ShortestDecimals

/-! # The texts of numbers

However a decimal is laid out, its text reads back as the number that it writes. So the text of a
double tells which double it is, and the text of a number which number.
-/

namespace LiveDoc

namespace DecimalLayout

open Numeral

variable {ds : List Char} {e : Int}

/-- A decimal below one. -/
theorem decimal?_fraction (h : Digits ds) (he : e < 0) :
    decimal? (positional ds e) = some ⟨ofDigits ds, e + 1 - ds.length⟩ := by
  have hplain := decimal?_plain (digits_zeros 1) (List.cons_ne_nil _ _)
    ((digits_zeros (-e - 1).toNat).append h)
  rw [positional, if_pos he]
  refine hplain.trans ?_
  rw [ofDigits_zeros_append, ofDigits_zeros_append, List.length_append, zeros,
    List.length_replicate]
  congr 2
  omega

/-- A decimal with digits on both sides of the point. -/
theorem decimal?_mixed (h : Digits ds) (he : 0 ≤ e) (hlong : e + 1 < ds.length) :
    decimal? (positional ds e) = some ⟨ofDigits ds, e + 1 - ds.length⟩ := by
  obtain ⟨n, rfl⟩ : ∃ n : Nat, e = n := ⟨e.toNat, by omega⟩
  have hlt : n + 1 < ds.length := by omega
  have hwhole : ds.take (n + 1) ≠ [] := by
    rw [ne_eq, ← List.length_eq_zero_iff, List.length_take]
    omega
  have hfraction : (ds.drop (n + 1)).isEmpty = false := by
    rw [List.isEmpty_eq_false_iff, ne_eq, List.drop_eq_nil_iff]
    omega
  have hrest : Digits (ds.drop (n + 1)) := fun c hc => h c (List.mem_of_mem_drop hc)
  have hplain := decimal?_plain (fun c hc => h c (List.mem_of_mem_take hc)) hwhole hrest
  rw [positional, if_neg (by omega)]
  dsimp only
  rw [Int.toNat_natCast, hfraction, Nat.sub_eq_zero_of_le hlt.le]
  refine (congrArg decimal? ?_).trans (hplain.trans ?_)
  · simp [zeros]
  · rw [List.take_append_drop, List.length_drop]
    congr 2
    omega

/-- A whole number: a zero stands behind the point. -/
theorem decimal?_whole (h : Digits ds) (he : 0 ≤ e) (hshort : ds.length ≤ e + 1) :
    decimal? (positional ds e) =
      some ⟨ofDigits ds * 10 ^ (e + 2 - ds.length).toNat, -1⟩ := by
  obtain ⟨n, rfl⟩ : ∃ n : Nat, e = n := ⟨e.toNat, by omega⟩
  have hle : ds.length ≤ n + 1 := by omega
  have hwhole : ds ++ zeros (n + 1 - ds.length) ≠ [] := by
    rw [ne_eq, ← List.length_eq_zero_iff, List.length_append, zeros, List.length_replicate]
    omega
  have hplain := decimal?_plain (h.append (digits_zeros (n + 1 - ds.length))) hwhole
    (digits_zeros 1)
  rw [positional, if_neg (by omega)]
  dsimp only
  rw [Int.toNat_natCast, List.drop_eq_nil_of_le hle, List.take_of_length_le hle]
  refine (congrArg decimal? ?_).trans (hplain.trans ?_)
  · simp [zeros]
  · rw [ofDigits_append_zeros, ofDigits_append_zeros, mul_assoc, ← Nat.pow_add,
      show n + 1 - ds.length + 1 = ((n : Int) + 2 - ds.length).toNat by omega]
    rfl

/-- Positional text writes the number that its digits and their exponent stand for. -/
theorem decimal?_positional (h : Digits ds) :
    ∃ d, decimal? (positional ds e) = some d ∧
      d.value = ofDigits ds * 10 ^ (e + 1 - ds.length) := by
  rcases Int.lt_or_le e 0 with he | he
  · exact ⟨_, decimal?_fraction h he, rfl⟩
  · rcases Int.lt_or_le (e + 1) ds.length with hlong | hshort
    · exact ⟨_, decimal?_mixed h he hlong, rfl⟩
    · refine ⟨_, decimal?_whole h he hshort, ?_⟩
      rw [Shortest.Decimal.value]
      push_cast
      rw [mul_assoc, ← zpow_natCast, ← zpow_add₀ (by norm_num)]
      congr 2
      omega

theorem decimal?_scientific (h : Digits ds) (hne : ds ≠ []) :
    decimal? (scientific ds e) = some ⟨ofDigits ds, e + 1 - ds.length⟩ := by
  obtain ⟨c, fraction, rfl⟩ := List.exists_cons_of_ne_nil hne
  have hc : Digits [c] := fun d hd => h d (List.mem_cons.2 (.inl (List.mem_singleton.1 hd)))
  have hf : Digits fraction := fun d hd => h d (List.mem_cons_of_mem _ hd)
  have htail : ∀ d ∈ ('e' :: (if e < 0 then '-' else '+') :: Nat.toDigits 10 e.natAbs).head?,
      d.isDigit = false ∧ d ≠ '.' := by
    simp
  by_cases hwhole : fraction = []
  · subst hwhole
    refine (decimal?_pointless hc (List.cons_ne_nil _ _) htail).trans ?_
    rw [exponent?_text, Option.map_some]
    simp
  · have hpoint := decimal?_point hc (List.cons_ne_nil _ _) hf fun d hd => (htail d hd).1
    rw [exponent?_text, Option.map_some] at hpoint
    refine (congrArg decimal? ?_).trans (hpoint.trans ?_)
    · simp [scientific, hwhole]
    · simp

/-- The text of a decimal writes the same number. -/
theorem decimal?_text (layout : DecimalLayout) (d : Shortest.Decimal) :
    ∃ d', decimal? (layout.text d) = some d' ∧ d'.value = d.value := by
  have hdigits := digits_toDigits d.digits
  have hexponent : d.exponent + (Nat.toDigits 10 d.digits).length - 1 + 1 -
      (Nat.toDigits 10 d.digits).length = d.exponent := by omega
  rw [text]
  split
  · obtain ⟨d', hd, hvalue⟩ := decimal?_positional hdigits
    rw [ofDigits_toDigits, hexponent] at hvalue
    exact ⟨d', hd, hvalue⟩
  · refine ⟨_, decimal?_scientific hdigits Nat.toDigits_ne_nil, ?_⟩
    rw [ofDigits_toDigits, hexponent]

/-- Somewhere in its text stands a point or the letter of an exponent. -/
theorem exists_mark (layout : DecimalLayout) (d : Shortest.Decimal) :
    ∃ c ∈ layout.text d, c = '.' ∨ c = 'e' := by
  rw [text]
  split
  · refine ⟨'.', ?_, .inl rfl⟩
    unfold positional
    split <;> simp
  · exact ⟨'e', by simp [scientific], .inr rfl⟩

end DecimalLayout

namespace Dyadic

open Shortest

variable {f g : Float} {d d' : Dyadic}

/-- The text of a double without its sign. -/
def magnitude (d : Dyadic) : List Char :=
  if d.mantissa = 0 then ['0', '.', '0'] else floatLayout.text (decimal d.mantissa d.exponent)

theorem toList_floatText (f : Float) :
    (floatText f).toList = Numeral.withSign (ofFloat f).negative (ofFloat f).magnitude :=
  String.toList_ofList

theorem normal_ofFloat (f : Float) : Normal (ofFloat f).mantissa (ofFloat f).exponent := by
  unfold ofFloat
  dsimp only [twoPow, Nat.pow_eq]
  split
  · constructor <;> dsimp only <;> omega
  · constructor <;> dsimp only <;> omega

/-- Sign, mantissa and exponent are all there is to a double. -/
theorem ofFloat_injective (h : ofFloat f = ofFloat g) : f = g := by
  have hf := f.toBits.toNat_lt
  have hg := g.toBits.toNat_lt
  have hbits : f.toBits.toNat = g.toBits.toNat := by
    unfold ofFloat at h
    dsimp only [twoPow, Nat.pow_eq] at h
    split at h <;> split at h <;> simp only [Dyadic.mk.injEq] at h <;> obtain ⟨hs, hm, he⟩ := h
    all_goals rw [Bool.eq_iff_iff, beq_iff_eq, beq_iff_eq] at hs; omega
  obtain ⟨⟨bits, hvalid⟩⟩ := f
  obtain ⟨⟨bits', hvalid'⟩⟩ := g
  obtain rfl : bits = bits' := UInt64.toNat_inj.1 hbits
  rfl

/-- What the text of a double writes, but for the sign, rounds to it. -/
theorem decimal?_magnitude (d : Dyadic) : ∃ c, Numeral.decimal? d.magnitude = some c ∧
    (d.mantissa = 0 → c.value = 0) ∧
    (0 < d.mantissa → Rounds d.mantissa d.exponent c.value) := by
  unfold magnitude
  split
  · next hzero =>
    have hplain := Numeral.decimal?_plain (Numeral.digits_zeros 1) (List.cons_ne_nil _ _)
      (Numeral.digits_zeros 1)
    refine ⟨_, hplain, fun _ => ?_, fun hpos => absurd hzero hpos.ne'⟩
    rw [Numeral.ofDigits_zeros_append, Numeral.ofDigits]
    simp [Decimal.value, DecimalLayout.zeros]
  · next hzero =>
    obtain ⟨c, hc, hvalue⟩ := floatLayout.decimal?_text (decimal d.mantissa d.exponent)
    exact ⟨c, hc, fun h => absurd h hzero, fun hpos => hvalue ▸ rounds_decimal hpos d.exponent⟩

/-- Without their signs, the texts of two doubles are equal only if the doubles are. -/
theorem magnitude_injective (hn : Normal d.mantissa d.exponent)
    (hn' : Normal d'.mantissa d'.exponent) (h : d.magnitude = d'.magnitude) :
    d.mantissa = d'.mantissa ∧ d.exponent = d'.exponent := by
  obtain ⟨c, hc, hzero, hrounds⟩ := d.decimal?_magnitude
  obtain ⟨c', hc', hzero', hrounds'⟩ := d'.decimal?_magnitude
  obtain rfl : c = c' := by
    rw [h, hc'] at hc
    exact (Option.some.inj hc).symm
  rcases Nat.eq_zero_or_pos d.mantissa with hm | hm <;>
    rcases Nat.eq_zero_or_pos d'.mantissa with hm' | hm'
  · have hleading := hn.leading
    have hleading' := hn'.leading
    omega
  · exact absurd (hzero hm) (Rounds.pos hm' (hrounds' hm')).ne'
  · exact absurd (hzero' hm') (Rounds.pos hm (hrounds hm)).ne'
  · exact (hrounds hm).unique hn hn' (hrounds' hm')

theorem signed_magnitude (d : Dyadic) :
    Numeral.signed d.magnitude = (false, d.magnitude) := by
  obtain ⟨c, hc, -⟩ := d.decimal?_magnitude
  exact Numeral.signed_of_decimal? hc

theorem exists_mark (d : Dyadic) : ∃ c ∈ d.magnitude, c = '.' ∨ c = 'e' := by
  unfold magnitude
  split
  · exact ⟨'.', by simp, .inl rfl⟩
  · exact floatLayout.exists_mark _

/-- The text of a double tells which double it is. -/
theorem floatText_injective (h : floatText f = floatText g) : f = g := by
  have hsigned := congrArg Numeral.signed (congrArg String.toList h)
  rw [toList_floatText, toList_floatText, Numeral.signed_withSign (signed_magnitude _),
    Numeral.signed_withSign (signed_magnitude _), Prod.mk.injEq] at hsigned
  obtain ⟨hm, he⟩ := magnitude_injective (normal_ofFloat f) (normal_ofFloat g) hsigned.2
  refine ofFloat_injective ?_
  rw [Dyadic.mk.injEq]
  exact ⟨hsigned.1, hm, he⟩

end Dyadic

/-- A character of a numeral. -/
def Json.isNumeral (c : Char) : Bool :=
  c.isDigit || c == '-' || c == '+' || c == '.' || c == 'e'

namespace Number

open Json

/-- A text whose characters all belong to numerals. -/
def Numeric (cs : List Char) : Prop :=
  ∀ c ∈ cs, isNumeral c = true

variable {cs cs' : List Char}

@[simp]
theorem numeric_nil : Numeric [] :=
  fun _ hc => absurd hc List.not_mem_nil

@[simp]
theorem numeric_append : Numeric (cs ++ cs') ↔ Numeric cs ∧ Numeric cs' :=
  List.forall_mem_append

@[simp]
theorem numeric_cons {c : Char} : Numeric (c :: cs) ↔ isNumeral c = true ∧ Numeric cs :=
  List.forall_mem_cons

theorem numeric_of_digits (h : Numeral.Digits cs) : Numeric cs := by
  intro c hc
  rw [isNumeral, h c hc]
  rfl

theorem numeric_layout (layout : DecimalLayout) (d : Shortest.Decimal) :
    Numeric (layout.text d) := by
  have hdigits (n : Nat) := numeric_of_digits (Numeral.digits_toDigits n)
  have hzeros (n : Nat) := numeric_of_digits (Numeral.digits_zeros n)
  have htake (n m : Nat) : Numeric ((Nat.toDigits 10 m).take n) :=
    fun c hc => hdigits m c (List.mem_of_mem_take hc)
  have hdrop (n m : Nat) : Numeric ((Nat.toDigits 10 m).drop n) :=
    fun c hc => hdigits m c (List.mem_of_mem_drop hc)
  unfold DecimalLayout.text DecimalLayout.positional DecimalLayout.scientific
  dsimp only
  split_ifs <;> simp [hdigits, hzeros, htake, hdrop, isNumeral, -List.drop_one]

theorem numeric_withSign (negative : Bool) (h : Numeric cs) :
    Numeric (Numeral.withSign negative cs) := by
  cases negative with
  | false => exact h
  | true => exact numeric_cons.2 ⟨rfl, h⟩

theorem toList_text_int (i : Int) : (Number.int i).text.toList =
    Numeral.withSign (decide (i < 0)) (Nat.toDigits 10 i.natAbs) := by
  cases i with
  | ofNat n => exact Nat.toList_repr
  | negSucc n =>
    rw [decide_eq_true (Int.negSucc_lt_zero n)]
    exact (String.toList_append).trans (congrArg ('-' :: ·) Nat.toList_repr)

theorem numeric_text (n : Number) : Numeric n.text.toList := by
  cases n with
  | int i =>
    rw [toList_text_int]
    exact numeric_withSign _ (numeric_of_digits (Numeral.digits_toDigits _))
  | float f =>
    rw [text, Dyadic.toList_floatText]
    refine numeric_withSign _ ?_
    unfold Dyadic.magnitude
    split
    · simp [isNumeral]
    · exact numeric_layout _ _

/-- The text of a number is an unsigned numeral behind its sign. -/
theorem exists_decimal (n : Number) : ∃ negative magnitude d,
    n.text.toList = Numeral.withSign negative magnitude ∧ Numeral.decimal? magnitude = some d := by
  cases n with
  | int i => exact ⟨_, _, _, toList_text_int i, Numeral.decimal?_toDigits _⟩
  | float f =>
    obtain ⟨d, hd, -⟩ := (Dyadic.ofFloat f).decimal?_magnitude
    exact ⟨_, _, d, Dyadic.toList_floatText f, hd⟩

theorem text_ne_nil (n : Number) : n.text.toList ≠ [] := by
  obtain ⟨negative, magnitude, d, htext, hd⟩ := n.exists_decimal
  intro h
  have hsigned := Numeral.signed_withSign (Numeral.signed_of_decimal? hd) negative
  rw [← htext, h] at hsigned
  obtain ⟨-, rfl⟩ := Prod.mk.inj hsigned
  cases hd

theorem text_int_injective {i j : Int} (h : (Number.int i).text = (Number.int j).text) : i = j := by
  have hsigned := congrArg Numeral.signed (congrArg String.toList h)
  rw [toList_text_int, toList_text_int, Numeral.signed_withSign (Numeral.signed_toDigits _),
    Numeral.signed_withSign (Numeral.signed_toDigits _), Prod.mk.injEq, decide_eq_decide] at hsigned
  have habs := congrArg Numeral.ofDigits hsigned.2
  rw [Numeral.ofDigits_toDigits, Numeral.ofDigits_toDigits] at habs
  omega

/-- A double is never written like a whole number. -/
theorem text_int_ne_float (i : Int) (f : Float) : (Number.int i).text ≠ (Number.float f).text := by
  intro h
  have hsigned := congrArg Numeral.signed (congrArg String.toList h)
  rw [toList_text_int, text, Dyadic.toList_floatText,
    Numeral.signed_withSign (Numeral.signed_toDigits _),
    Numeral.signed_withSign (Dyadic.signed_magnitude _), Prod.mk.injEq] at hsigned
  obtain ⟨c, hc, hmark⟩ := (Dyadic.ofFloat f).exists_mark
  have hdigit := Numeral.digits_toDigits _ c (hsigned.2 ▸ hc)
  rcases hmark with rfl | rfl <;> exact absurd hdigit (by decide)

/-- The text of a number tells which number it is. -/
theorem text_injective {m n : Number} (h : m.text = n.text) : m = n := by
  cases m with
  | int i =>
    cases n with
    | int j => rw [text_int_injective h]
    | float g => exact absurd h (text_int_ne_float i g)
  | float f =>
    cases n with
    | int j => exact absurd h.symm (text_int_ne_float j f)
    | float g => rw [Dyadic.floatText_injective h]

end Number

end LiveDoc
