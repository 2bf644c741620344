import LiveDoc.Proofs.TemplateText
import Mathlib.Tactic.Tauto

/-! # Reading words and literals

Blanks, words, numbers and texts in quotes are read back where something follows that does not go on
with them.
-/

namespace LiveDoc

namespace Grammar

open Scanner

variable {α : Type} {p : Scanner Expr} {e : Expr} {s : String} {c : Char} {cs rest left : List Char}

/-! ## Blanks and ends -/

def isBlank (c : Char) : Bool :=
  c == ' ' || c == '\t' || c == '\r' || c == '\n'

/-- The text does not start with a blank. -/
def Solid (cs : List Char) : Prop :=
  ∀ c ∈ cs.head?, isBlank c = false

theorem Solid.space (h : Solid cs) : space cs = .accept () cs :=
  bind_of_accept (run_of_head h)

theorem space_blank (h : Solid cs) : space (' ' :: cs) = .accept () cs :=
  h.space

theorem spaced_eq {q : Scanner α} {a : α} {cs' : List Char} (before : space cs = .accept () cs')
    (h : q cs' = .accept a rest) (after : space rest = .accept () left) :
    spaced q cs = .accept a left := by
  refine (bind_of_accept before).trans ?_
  refine (bind_of_accept h).trans ?_
  exact bind_of_accept after

theorem space_gap {gap : List Char} (hg : ∀ c ∈ gap, isBlank c = true) (h : Solid cs) :
    space (gap ++ cs) = .accept () cs :=
  bind_of_accept (run_append hg h)

/-- More blanks make no difference to what allows blanks in front. -/
theorem spaced_gap {gap : List Char} (hg : ∀ c ∈ gap, isBlank c = true) (h : Solid cs) (q : Scanner α) :
    spaced q (gap ++ cs) = spaced q cs := by
  rw [spaced, bind_of_accept (space_gap hg h), bind_of_accept h.space]

theorem close_gap {gap : List Char} (hg : ∀ c ∈ gap, isBlank c = true) (h : Solid cs) (c : Char) :
    close c (gap ++ cs) = close c cs := by
  rw [close, bind_of_accept (space_gap hg h), bind_of_accept h.space]

theorem blank_singleton : ∀ c ∈ [' '], isBlank c = true :=
  List.forall_mem_singleton.2 rfl

theorem head?_gap_ne {gap : List Char} (hg : ∀ c ∈ gap, isBlank c = true) (hc : isBlank c = false)
    (h : cs.head? ≠ some c) : (gap ++ cs).head? ≠ some c := by
  cases gap with
  | nil => exact h
  | cons d gap =>
    rintro ⟨⟩
    rw [hg c List.mem_cons_self] at hc
    cases hc

theorem solid_cons (h : isBlank c = false) (cs : List Char) : Solid (c :: cs) := by
  rintro d ⟨⟩
  exact h

theorem close_eq (h : isBlank c = false) (rest : List Char) : close c (c :: rest) = .accept () rest := by
  exact (bind_of_accept (solid_cons h rest).space).trans (char_cons c rest)

/-- The text starts with a character that ends an expression in front of it. -/
def Closes (cs : List Char) : Prop :=
  ∃ c left, cs = c :: left ∧ c ∈ [')', ']', '\x7d', ',']

theorem closes_cons (h : c ∈ [')', ']', '\x7d', ',']) (cs : List Char) : Closes (c :: cs) :=
  ⟨c, cs, rfl, h⟩

/-- What all characters that close an expression have in common. -/
theorem Closes.head {kind : Char → Bool} (h : Closes cs)
    (hk : [')', ']', '\x7d', ','].all kind = true) : ∀ c ∈ cs.head?, kind c = true := by
  obtain ⟨c, left, rfl, hc⟩ := h
  rintro d ⟨⟩
  exact List.all_eq_true.1 hk c hc

theorem Closes.solid (h : Closes cs) : Solid cs := by
  intro c hc
  simpa using h.head (by decide : List.all _ (fun c => !isBlank c) = true) c hc

/-- No word goes on with the text. -/
def EndsWord (cs : List Char) : Prop :=
  ∀ c ∈ cs.head?, isWordChar c = false

theorem endsWord_cons (h : isWordChar c = false) (cs : List Char) : EndsWord (c :: cs) := by
  rintro d ⟨⟩
  exact h

theorem Closes.endsWord (h : Closes cs) : EndsWord cs := by
  intro c hc
  simpa using h.head (by decide : List.all _ (fun c => !isWordChar c) = true) c hc

/-- Nothing goes on with an operand here, nor makes it the name of a call. -/
structure EndsOperand (cs : List Char) : Prop where
  word : EndsWord cs
  member : cs.head? ≠ some '.'
  index : cs.head? ≠ some '['
  call : (close '(').Refuses cs

theorem Closes.endsOperand (h : Closes cs) : EndsOperand cs := by
  refine ⟨h.endsWord, fun hc => ?_, fun hc => ?_, ?_⟩
  · simpa using h.head (by decide : List.all _ (fun c => c != '.') = true) '.' hc
  · simpa using h.head (by decide : List.all _ (fun c => c != '[') = true) '[' hc
  · obtain ⟨c, left, rfl, hc⟩ := h
    simp only [List.mem_cons, List.not_mem_nil, or_false] at hc
    rcases hc with rfl | rfl | rfl | rfl <;> exact ⟨_, rfl⟩

/-! ## Words -/

theorem isWordChar_of_isWordStart (h : isWordStart c = true) : isWordChar c = true := by
  simp only [isWordStart, isWordChar, Text.isAlphanumeric, Bool.or_eq_true] at *
  tauto

theorem isWordChar_head (h : IsKeyWord s) (rest : List Char) :
    ∀ c, (s.toList ++ rest).head? = some c → isWordChar c = true := by
  obtain ⟨hne, hall⟩ := h
  intro c hc
  rw [List.head?_append_of_ne_nil _ hne] at hc
  exact hall c (List.mem_of_mem_head? hc)

theorem keyWord_append (h : IsKeyWord s) (hr : EndsWord rest) :
    keyWord (s.toList ++ rest) = .accept s rest := by
  refine (bind_of_accept (run₁_append h.2 h.1 hr)).trans ?_
  rw [String.ofList_toList]
  rfl

theorem isIdentifier_of_toList (hs : s.toList = c :: cs) (hc : isWordStart c = true)
    (hcs : cs.all isWordChar = true) : IsIdentifier s := by
  have hall : ∀ d ∈ c :: cs, isWordChar d = true :=
    List.forall_mem_cons.2 ⟨isWordChar_of_isWordStart hc, List.all_eq_true.1 hcs⟩
  rw [IsIdentifier, IsKeyWord, hs]
  refine ⟨⟨List.cons_ne_nil c cs, hall⟩, ?_⟩
  rintro d ⟨⟩
  exact hc

theorem identifier_append (h : IsIdentifier s) (hr : EndsWord rest) :
    identifier (s.toList ++ rest) = .accept s rest := by
  obtain ⟨⟨hne, hall⟩, hstart⟩ := h
  obtain ⟨c, cs, hs⟩ := List.exists_cons_of_ne_nil hne
  rw [hs] at hall hstart ⊢
  refine (bind_of_accept (one_cons (hstart c rfl))).trans ?_
  refine (bind_of_accept (run_append (fun d hd => hall d (List.mem_cons_of_mem c hd)) hr)).trans ?_
  rw [← hs, String.ofList_toList]
  rfl

theorem identifier_refuses (h : ∀ c ∈ cs.head?, isWordStart c = false) : identifier.Refuses cs :=
  (one_refuses h).bind _

theorem dotted_append {word : Scanner String} (h : word cs = .accept s rest) :
    dotted word ('.' :: cs) = .accept s rest :=
  (bind_of_accept (char_cons '.' cs)).trans h

/-! ## Literals -/

theorem numberOf?_toDigits {n : Nat} (h : n < 2 ^ 64) :
    numberOf? (Nat.toDigits 10 n) [] = some (.int n) := by
  have hwhole : Json.numberOf false (Nat.toDigits 10 n) [] none = some (.int n) := by
    have hfits : Numeral.fitsUnsigned n = true := by
      simpa [Numeral.fitsUnsigned] using h
    simp [Json.numberOf, Numeral.ofDigits_toDigits, hfits]
  unfold numberOf?
  split
  · next d ds hd =>
    exfalso
    rcases Nat.eq_zero_or_pos n with rfl | hn
    · simp at hd
    · exact Numeral.head?_toDigits (Nat.pos_iff_ne_zero.1 hn) (by rw [hd]; rfl)
  · exact hwhole

theorem toNat_of_isDigit (h : c.isDigit = true) : 48 ≤ c.toNat ∧ c.toNat ≤ 57 := by
  simpa [Char.isDigit, UInt32.le_iff_toNat_le] using h

theorem isWordChar_of_isDigit (h : c.isDigit = true) : isWordChar c = true := by
  have hlow : c.toNat < 0x80 := by
    have := (toNat_of_isDigit h).2
    omega
  have hnumeric : Text.isNumeric c = true := by rw [Text.isNumeric, if_pos hlow, h]
  simp only [isWordChar, Text.isAlphanumeric, hnumeric, Bool.or_true, Bool.true_or]

/-- The digits behind the point of a number, with the point. -/
def pointed : List Char → List Char
  | [] => []
  | d :: ds => '.' :: d :: ds

theorem number_digits {whole fraction : List Char} {n : Number} (hw : Numeral.Digits whole)
    (hne : whole ≠ []) (hf : Numeral.Digits fraction) (hn : numberOf? whole fraction = some n)
    (hr : EndsOperand rest) :
    number (whole ++ (pointed fraction ++ rest)) = .accept (.lit (.num n)) rest := by
  have hdigit : ∀ c ∈ rest.head?, c.isDigit = false := by
    intro c hc
    rw [Bool.eq_false_iff]
    intro hd
    have hword := hr.word c hc
    rw [isWordChar_of_isDigit hd] at hword
    cases hword
  have hfraction : (do char '.'; run₁ Char.isDigit : Scanner (List Char)).opt (pointed fraction ++ rest) =
      .accept (if fraction = [] then none else some fraction) rest := by
    cases fraction with
    | nil =>
      have hpoint : (char '.').Refuses rest := char_refuses hr.member
      exact (hpoint.bind _).opt
    | cons d ds =>
      apply opt_of_accept
      refine (bind_of_accept (char_cons '.' _)).trans ?_
      exact run₁_append hf (List.cons_ne_nil d ds) hdigit
  have hpoint : ∀ c ∈ (pointed fraction ++ rest).head?, c.isDigit = false := by
    cases fraction with
    | nil => exact hdigit
    | cons d ds =>
      rintro c ⟨⟩
      rfl
  have hdigits : (do
      let whole ← run₁ Char.isDigit
      let fraction ← (do char '.'; run₁ Char.isDigit).opt
      return (whole, fraction.getD []) : Scanner (List Char × List Char))
        (whole ++ (pointed fraction ++ rest)) = .accept (whole, fraction) rest := by
    refine (bind_of_accept (run₁_append hw hne hpoint)).trans ?_
    refine (bind_of_accept hfraction).trans ?_
    cases fraction <;> rfl
  simp only [number, hdigits, hn]

theorem number_append {n : Nat} (h : n < 2 ^ 64) (hr : EndsOperand rest) :
    number (Nat.toDigits 10 n ++ rest) = .accept (.lit (.num (.int n))) rest :=
  number_digits (Numeral.digits_toDigits n) Nat.toDigits_ne_nil (List.forall_mem_nil _)
    (numberOf?_toDigits h) hr

/-- A character in quotes, or an escape. -/
def quotedItem (quote : Char) : Scanner Char :=
  orElse (do char '\x5c'; return unescape (← one fun _ => true))
    (one fun c => c != quote && c != '\x5c')

theorem quotedItem_append (c : Char) (rest : List Char) :
    quotedItem '\x27' (quotedChar c ++ rest) = .accept c rest := by
  unfold quotedChar
  split
  · rfl
  · rfl
  · rfl
  · split
    · next h => rcases h with rfl | rfl <;> rfl
    · next h =>
      rw [not_or] at h
      have hslash : (char '\x5c').Refuses (c :: rest) := char_refuses (by simpa using h.2)
      refine ((hslash.bind _).orElse_eq _).trans ?_
      exact one_cons (by simpa using h)

theorem quotedChar_ne_nil (c : Char) : quotedChar c ≠ [] := by
  unfold quotedChar
  split
  · simp
  · simp
  · simp
  · split <;> simp

theorem quotedBy_of_repeats {quote : Char} {text : List Char}
    (h : Repeats (quotedItem quote) (text ++ quote :: rest) cs (quote :: rest)) :
    quotedBy quote (quote :: (text ++ quote :: rest)) = .accept (String.ofList cs) rest := by
  refine (bind_of_accept (char_cons quote _)).trans ?_
  refine (bind_of_accept h.many_eq).trans ?_
  exact bind_of_accept (char_cons quote rest)

theorem quoted_append (s : String) (rest : List Char) :
    quoted (quotedText s ++ rest) = .accept s rest := by
  have hitems : Repeats (quotedItem '\x27') (s.toList.flatMap quotedChar ++ '\x27' :: rest) s.toList
      ('\x27' :: rest) :=
    .of_flatMap s.toList (fun c _ cs (_ : True) => quotedItem_append c cs)
      (fun c _ => quotedChar_ne_nil c) (fun _ _ _ => trivial) trivial ⟨_, rfl⟩
  have htext : quotedText s ++ rest = '\x27' :: (s.toList.flatMap quotedChar ++ '\x27' :: rest) := by
    simp [quotedText]
  have hread := orElse_of_accept (q := quotedBy '\x22') (quotedBy_of_repeats hitems)
  rw [String.ofList_toList] at hread
  rw [htext]
  exact hread

end Grammar

end LiveDoc
