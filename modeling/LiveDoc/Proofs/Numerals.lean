import LiveDoc.Number.Layout
import LiveDoc.Number.Numeral
import Mathlib.Algebra.Ring.Nat
import Mathlib.Data.List.TakeDrop

/-! # Numerals

Lists of digits, and the decimal that an unsigned numeral writes.
-/

namespace LiveDoc

namespace Numeral

/-- The decimal that an unsigned numeral writes. -/
def decimal? (cs : List Char) : Option Shortest.Decimal :=
  let (whole, rest) := takeDigits cs
  let (fraction, tail) := match rest with
    | '.' :: more => takeDigits more
    | _ => ([], rest)
  if whole.isEmpty && fraction.isEmpty then none
  else (exponent? tail).map fun e => ⟨ofDigits (whole ++ fraction), e - fraction.length⟩

/-- What a numeral is read as is the double nearest to the decimal that it writes. -/
theorem magnitude?_eq (cs : List Char) :
    magnitude? cs = (decimal? cs).map fun d => nearest d.digits d.exponent := by
  simp only [decimal?, apply_ite (Option.map _), Option.map_none, Option.map_map]
  rfl

/-- A list of digits. -/
def Digits (ds : List Char) : Prop :=
  ∀ c ∈ ds, c.isDigit = true

variable {ds whole fraction tail : List Char}

theorem digits_toDigits (n : Nat) : Digits (Nat.toDigits 10 n) :=
  fun _ hc => Nat.isDigit_of_mem_toDigits (by decide) (by decide) hc

theorem digits_zeros (n : Nat) : Digits (DecimalLayout.zeros n) :=
  fun _ hc => (List.mem_replicate.1 hc).2 ▸ rfl

theorem Digits.append {ds' : List Char} (h : Digits ds) (h' : Digits ds') : Digits (ds ++ ds') :=
  List.forall_mem_append.2 ⟨h, h'⟩

theorem ofDigits_toDigits (n : Nat) : ofDigits (Nat.toDigits 10 n) = n :=
  Nat.ofDigitChars_toDigits (by decide) (by decide)

/-- Only zero itself starts with a zero. -/
theorem head?_toDigits {n : Nat} (h : n ≠ 0) : (Nat.toDigits 10 n).head? ≠ some '0' := by
  induction n using Nat.strongRecOn with
  | ind n ih =>
    rcases Nat.lt_or_ge n 10 with hn | hn
    · have hdigit : ∀ m < 10, m ≠ 0 → Nat.digitChar m ≠ '0' := by decide
      rw [Nat.toDigits_of_lt_base hn]
      simpa using hdigit n hn h
    · have hwhole : (Nat.toDigits 10 (n / 10)).head? ≠ some '0' := ih (n / 10) (by omega) (by omega)
      obtain ⟨d, ds, hds⟩ := List.exists_cons_of_ne_nil (Nat.toDigits_ne_nil (b := 10) (n := n / 10))
      rw [hds] at hwhole
      rw [Nat.toDigits_of_base_le (by decide) hn, hds]
      exact hwhole

theorem ofDigits_zeros_append (n : Nat) (ds : List Char) :
    ofDigits (DecimalLayout.zeros n ++ ds) = ofDigits ds := by
  show Nat.ofDigitChars 10 (List.replicate n '0' ++ ds) 0 = Nat.ofDigitChars 10 ds 0
  rw [Nat.ofDigitChars_append, Nat.ofDigitChars_replicate_zero, Nat.mul_zero]

theorem ofDigits_append_zeros (n : Nat) (ds : List Char) :
    ofDigits (ds ++ DecimalLayout.zeros n) = ofDigits ds * 10 ^ n := by
  show Nat.ofDigitChars 10 (ds ++ List.replicate n '0') 0 = Nat.ofDigitChars 10 ds 0 * 10 ^ n
  rw [Nat.ofDigitChars_append, Nat.ofDigitChars_replicate_zero, Nat.mul_comm]

theorem takeDigits_append (h : Digits ds) (ht : ∀ c ∈ tail.head?, c.isDigit = false) :
    takeDigits (ds ++ tail) = (ds, tail) := by
  rw [takeDigits, List.span_eq_takeWhile_dropWhile, List.takeWhile_append_of_pos h,
    List.dropWhile_append_of_pos h]
  cases tail with
  | nil => simp
  | cons c tail => simp [ht c rfl]

theorem nat?_toDigits (n : Nat) : nat? (Nat.toDigits 10 n) = some n := by
  have hne : (Nat.toDigits 10 n).isEmpty = false := by simp [Nat.toDigits_ne_nil]
  simp [nat?, hne, List.all_eq_true.2 (digits_toDigits n), ofDigits_toDigits]

/-- The text of an exponent names it. -/
theorem exponent?_text (e : Int) :
    exponent? ('e' :: (if e < 0 then '-' else '+') :: Nat.toDigits 10 e.natAbs) = some e := by
  have hletter : ('e' == 'e' || 'e' == 'E') = true := rfl
  split
  · simp only [exponent?, signed, hletter, if_true, nat?_toDigits]
    exact congrArg some (show -(e.natAbs : Int) = e by omega)
  · simp only [exponent?, signed, hletter, if_true, nat?_toDigits, Bool.false_eq_true, if_false]
    exact congrArg some (show (e.natAbs : Int) = e by omega)

/-- A numeral with a point. -/
theorem decimal?_point (hw : Digits whole) (hne : whole ≠ []) (hf : Digits fraction)
    (ht : ∀ c ∈ tail.head?, c.isDigit = false) :
    decimal? (whole ++ '.' :: (fraction ++ tail)) =
      (exponent? tail).map fun e => ⟨ofDigits (whole ++ fraction), e - fraction.length⟩ := by
  have hpoint : ∀ c ∈ ('.' :: (fraction ++ tail)).head?, c.isDigit = false := by simp
  simp [decimal?, takeDigits_append hw hpoint, takeDigits_append hf ht, hne]

/-- A numeral with a point and no exponent. -/
theorem decimal?_plain (hw : Digits whole) (hne : whole ≠ []) (hf : Digits fraction) :
    decimal? (whole ++ '.' :: fraction) =
      some ⟨ofDigits (whole ++ fraction), -fraction.length⟩ := by
  have h := decimal?_point hw hne hf (show ∀ c ∈ ([] : List Char).head?, c.isDigit = false by simp)
  rwa [List.append_nil, exponent?, Option.map_some, Int.zero_sub] at h

/-- A numeral without a point. -/
theorem decimal?_pointless (hw : Digits whole) (hne : whole ≠ [])
    (ht : ∀ c ∈ tail.head?, c.isDigit = false ∧ c ≠ '.') :
    decimal? (whole ++ tail) = (exponent? tail).map fun e => ⟨ofDigits whole, e⟩ := by
  have htail : (match tail with
      | '.' :: more => takeDigits more
      | _ => ([], tail)) = ([], tail) := by
    split
    · exact absurd rfl (ht '.' rfl).2
    · rfl
  simp only [decimal?, takeDigits_append hw fun c hc => (ht c hc).1]
  rw [htail]
  simp [hne]

/-- A minus in front of a numeral, or nothing. -/
def withSign (negative : Bool) (cs : List Char) : List Char :=
  if negative then '-' :: cs else cs

/-- The sign is read back. -/
theorem signed_withSign {cs : List Char} (h : signed cs = (false, cs)) (negative : Bool) :
    signed (withSign negative cs) = (negative, cs) := by
  cases negative with
  | false => exact h
  | true => rfl

/-- An unsigned numeral has no sign. -/
theorem signed_of_decimal? {cs : List Char} {d : Shortest.Decimal} (h : decimal? cs = some d) :
    signed cs = (false, cs) := by
  unfold signed
  split
  · simp [decimal?, takeDigits, List.span_eq_takeWhile_dropWhile] at h
  · simp [decimal?, takeDigits, List.span_eq_takeWhile_dropWhile] at h
  · rfl

theorem decimal?_toDigits (n : Nat) : decimal? (Nat.toDigits 10 n) = some ⟨n, 0⟩ := by
  have h := decimal?_pointless (digits_toDigits n) Nat.toDigits_ne_nil
    (show ∀ c ∈ ([] : List Char).head?, c.isDigit = false ∧ c ≠ '.' by simp)
  rwa [List.append_nil, exponent?, Option.map_some, ofDigits_toDigits] at h

theorem signed_toDigits (n : Nat) : signed (Nat.toDigits 10 n) = (false, Nat.toDigits 10 n) :=
  signed_of_decimal? (decimal?_toDigits n)

end Numeral

end LiveDoc
