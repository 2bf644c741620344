import LiveDoc.Template.Grammar
import Mathlib.Data.List.Infix

/-! # What scanners leave

Wherever a scanner stops, behind what it accepts or at a failure, it leaves an end of the text that
it was given. No rule of the grammar invents text or goes back in front of its start.
-/

namespace LiveDoc

variable {α β : Type}

/-- The text in front of which a scanner has stopped. -/
def Outcome.left : Outcome α → List Char
  | .accept _ rest | .refuse rest | .broken rest => rest

namespace Scanner

/-- The scanner leaves an end of the text, whether it accepts or fails. -/
def Forward (p : Scanner α) : Prop :=
  ∀ cs, (p cs).left <:+ cs

variable {p q : Scanner α} {a : α} {cs rest : List Char}

theorem Forward.accepts (h : p.Forward) (ha : p cs = .accept a rest) : rest <:+ cs := by
  have hcs := h cs
  rwa [ha] at hcs

theorem Forward.refuses (h : p.Forward) (hr : p cs = .refuse rest) : rest <:+ cs := by
  have hcs := h cs
  rwa [hr] at hcs

theorem Forward.breaks (h : p.Forward) (hb : p cs = .broken rest) : rest <:+ cs := by
  have hcs := h cs
  rwa [hb] at hcs

/-! ## One after the other -/

theorem forward_pure (a : α) : (pure a : Scanner α).Forward :=
  List.suffix_refl

theorem forward_fail : (fail : Scanner α).Forward :=
  List.suffix_refl

theorem Forward.bind {f : α → Scanner β} (hp : p.Forward) (hf : ∀ a, (f a).Forward) :
    (p >>= f).Forward := by
  intro cs
  simp only [Bind.bind]
  cases h : p cs with
  | accept a rest => exact (hf a rest).trans (hp.accepts h)
  | refuse rest => exact hp.refuses h
  | broken rest => exact hp.breaks h

/-! ## Alternatives -/

/-- What stands behind a refusal starts anew from the same place. -/
theorem Forward.orElse (hp : p.Forward) (hq : q.Forward) : (p.orElse q).Forward := by
  intro cs
  unfold Scanner.orElse
  cases h : p cs with
  | accept a rest => exact hp.accepts h
  | refuse rest => exact hq cs
  | broken rest => exact hp.breaks h

theorem forward_firstOf {ps : List (Scanner α)} (h : ∀ p ∈ ps, p.Forward) : (firstOf ps).Forward := by
  induction ps with
  | nil => exact forward_fail
  | cons p ps ih =>
    obtain ⟨hp, hps⟩ := List.forall_mem_cons.1 h
    cases ps with
    | nil => exact hp
    | cons q ps => exact hp.orElse (ih hps)

theorem Forward.opt (hp : p.Forward) : p.opt.Forward := by
  intro cs
  unfold Scanner.opt
  cases h : p cs with
  | accept a rest => exact hp.accepts h
  | refuse rest => exact List.suffix_refl cs
  | broken rest => exact hp.breaks h

theorem Forward.commit (hp : p.Forward) : p.commit.Forward := by
  intro cs
  unfold Scanner.commit
  cases h : p cs with
  | accept a rest => exact hp.accepts h
  | refuse rest => exact hp.refuses h
  | broken rest => exact hp.breaks h

/-! ## Repetitions -/

theorem Forward.upTo (hp : p.Forward) (n : Nat) : (p.upTo n).Forward := by
  induction n with
  | zero => exact forward_pure []
  | succ n ih =>
    refine hp.opt.bind fun
      | none => forward_pure []
      | some a => ih.bind fun as => forward_pure (a :: as)

theorem Forward.many (hp : p.Forward) : (many p).Forward :=
  fun cs => hp.upTo cs.length cs

theorem Forward.some₁ (hp : p.Forward) : (some₁ p).Forward :=
  hp.bind fun a => hp.many.bind fun as => forward_pure (a :: as)

theorem Forward.separatedBy {sep : Scanner β} (hs : sep.Forward) (hp : p.Forward) :
    (separatedBy sep p).Forward :=
  hp.opt.bind fun
    | none => forward_pure []
    | some a => (hs.bind fun _ => hp).many.bind fun as => forward_pure (a :: as)

theorem Forward.chain {operator : Scanner (α → α → α)} (hp : p.Forward) (ho : operator.Forward) :
    (chain p operator).Forward := by
  have hfrom (n : Nat) (left : α) : (chainFrom p operator n left).Forward := by
    induction n generalizing left with
    | zero => exact forward_pure left
    | succ n ih =>
      refine ho.opt.bind fun
        | none => forward_pure left
        | some join => hp.bind fun right => ih (join left right)
  exact hp.bind fun left cs => hfrom cs.length left cs

/-! ## Characters -/

theorem forward_one (holds : Char → Bool) : (one holds).Forward := by
  rintro (_ | ⟨c, cs⟩)
  · exact List.suffix_refl []
  · simp only [one]
    split
    · exact List.suffix_cons c cs
    · exact List.suffix_refl (c :: cs)

theorem forward_char (c : Char) : (char c).Forward :=
  (forward_one _).bind fun _ => forward_pure ()

theorem forward_token (t : List Char) : (token t).Forward := by
  intro cs
  unfold token
  split
  · exact List.drop_suffix t.length cs
  · exact List.suffix_refl cs

theorem forward_run (holds : Char → Bool) : (run holds).Forward :=
  fun _ => List.dropWhile_suffix holds

theorem forward_run₁ (holds : Char → Bool) : (run₁ holds).Forward := by
  intro cs
  unfold run₁
  split
  · exact List.suffix_refl cs
  · exact List.dropWhile_suffix holds

theorem forward_space : space.Forward :=
  (forward_run _).bind fun _ => forward_pure ()

theorem Forward.spaced (hp : p.Forward) : (spaced p).Forward :=
  forward_space.bind fun _ => hp.bind fun a => forward_space.bind fun _ => forward_pure a

end Scanner

namespace Grammar

open Scanner

/-! ## Words and literals -/

theorem forward_identifier : identifier.Forward :=
  (forward_one _).bind fun _ => (forward_run _).bind fun _ => forward_pure _

theorem forward_keyWord : keyWord.Forward :=
  (forward_run₁ _).bind fun _ => forward_pure _

theorem forward_dotted {word : Scanner String} (h : word.Forward) : (dotted word).Forward :=
  (forward_char '.').bind fun _ => h

/-- Digits that write no number are left as a whole. -/
theorem forward_number : number.Forward := by
  have hdigits : (do
      let whole ← run₁ Char.isDigit
      let fraction ← (do char '.'; run₁ Char.isDigit).opt
      return (whole, fraction.getD []) : Scanner (List Char × List Char)).Forward :=
    (forward_run₁ _).bind fun _ =>
      ((forward_char '.').bind fun _ => forward_run₁ _).opt.bind fun _ => forward_pure _
  intro cs
  simp only [number]
  split
  · next h =>
    split
    · exact hdigits.accepts h
    · exact List.suffix_refl cs
  · next h => exact hdigits.refuses h
  · next h => exact hdigits.breaks h

theorem forward_quotedBy (quote : Char) : (quotedBy quote).Forward :=
  (forward_char quote).bind fun _ =>
    (((forward_char _).bind fun _ => (forward_one _).bind fun _ => forward_pure _).orElse
      (forward_one _)).many.bind fun _ => (forward_char quote).bind fun _ => forward_pure _

theorem forward_quoted : quoted.Forward :=
  (forward_quotedBy _).orElse (forward_quotedBy _)

theorem forward_escape : escape.Forward :=
  (forward_char _).bind fun _ => (forward_one _).bind fun _ => forward_pure _

theorem forward_close (c : Char) : (close c).Forward :=
  forward_space.bind fun _ => forward_char c

/-! ## Rules over expressions -/

section

variable {p : Scanner Expr} (hp : p.Forward)

include hp

theorem forward_span : (span p).Forward :=
  (forward_token _).bind fun _ =>
    (hp.spaced.bind fun _ => (forward_char _).bind fun _ => forward_pure _).commit

theorem forward_part (closing : Option Char) : (part p closing).Forward := by
  apply forward_firstOf
  simp only [List.forall_mem_cons, List.not_mem_nil, false_imp_iff, implies_true, and_true]
  exact ⟨forward_escape, forward_span hp, (forward_char _).bind fun _ => forward_pure _,
    (forward_char _).bind fun _ => forward_pure _, (forward_run₁ _).bind fun _ => forward_pure _⟩

theorem forward_partsUpTo (closing : Option Char) (n : Nat) : (partsUpTo p closing n).Forward := by
  induction n with
  | zero => exact forward_pure []
  | succ n ih =>
    intro cs
    unfold partsUpTo
    cases cs with
    | nil => exact List.suffix_refl []
    | cons c cs =>
      dsimp only
      split
      · exact List.suffix_refl (c :: cs)
      · exact (forward_part hp closing).bind (fun _ => ih.bind fun _ => forward_pure _) (c :: cs)

theorem forward_template (closing : Option Char) : (template p closing).Forward :=
  fun cs => ((forward_partsUpTo hp closing cs.length).bind fun _ => forward_pure _) cs

theorem forward_backTicked : (backTicked p).Forward :=
  (forward_char _).bind fun _ => (forward_template hp _).bind fun _ =>
    (forward_char _).bind fun _ => forward_pure _

theorem forward_items : (separatedBy (char ',') (spaced p)).Forward :=
  (forward_char ',').separatedBy hp.spaced

theorem forward_array : (array p).Forward :=
  (forward_char _).bind fun _ => forward_space.bind fun _ => (forward_items hp).bind fun _ =>
    (forward_close _).bind fun _ => forward_pure _

theorem forward_entry : (entry p).Forward :=
  (forward_quoted.orElse forward_identifier).bind fun _ => (forward_char _).spaced.bind fun _ =>
    hp.bind fun _ => forward_pure _

theorem forward_object : (object p).Forward :=
  (forward_char _).bind fun _ => forward_space.bind fun _ =>
    ((forward_char _).spaced.separatedBy (forward_entry hp)).bind fun _ =>
      (forward_close _).bind fun _ => forward_pure _

theorem forward_parenthesized : (parenthesized p).Forward :=
  (forward_char _).bind fun _ => forward_space.bind fun _ => hp.bind fun _ =>
    (forward_close _).bind fun _ => forward_pure _

theorem forward_bracketed : (bracketed p).Forward :=
  (forward_char _).bind fun _ => forward_space.bind fun _ => hp.bind fun _ =>
    (forward_close _).bind fun _ => forward_pure _

theorem forward_refTail : (refTail p).Forward :=
  (((forward_dotted forward_keyWord).bind fun _ => forward_pure _).orElse
    ((forward_bracketed hp).bind fun _ => forward_pure _)).many

theorem forward_climbing : (climbing p).Forward :=
  ((forward_char _).bind fun _ => forward_char _).some₁.bind fun _ => forward_keyWord.bind fun _ =>
    (forward_refTail hp).bind fun _ => forward_pure _

omit hp in
theorem forward_callHead (first : String) : (callHead first).Forward :=
  (forward_dotted forward_identifier).many.bind fun _ => (forward_close _).bind fun _ => forward_pure _

theorem forward_arguments : (arguments p).Forward :=
  (forward_items hp).bind fun _ => (forward_close _).bind fun _ => forward_pure _

/-- Where no call follows, the words behind the first one are read anew. -/
theorem forward_named : (named p).Forward := by
  refine forward_identifier.bind fun first => ?_
  split
  · exact forward_pure _
  · split
    · exact forward_pure _
    · split
      · exact forward_pure _
      · refine (forward_callHead first).opt.bind fun
          | some name => (forward_arguments hp).bind fun _ => forward_pure _
          | none => (forward_refTail hp).bind fun _ => forward_pure _

theorem forward_primary : (primary p).Forward := by
  apply forward_firstOf
  simp only [List.forall_mem_cons, List.not_mem_nil, false_imp_iff, implies_true, and_true]
  exact ⟨forward_number, forward_quoted.bind fun _ => forward_pure _, forward_backTicked hp,
    forward_array hp, forward_object hp, forward_parenthesized hp, forward_climbing hp,
    forward_named hp⟩

/-! ## Operators -/

theorem forward_suffixed : (suffixed p).Forward :=
  (forward_primary hp).bind fun _ =>
    (((forward_bracketed hp).bind fun _ => forward_pure _).orElse
      ((forward_dotted forward_keyWord).bind fun _ => forward_pure _)).many.bind fun _ => forward_pure _

omit hp in
theorem forward_sign : sign.Forward :=
  (((forward_char _).bind fun _ => forward_pure _).orElse
    ((forward_char _).bind fun _ => forward_pure _)).bind fun _ =>
      forward_space.bind fun _ => forward_pure _

theorem forward_signed : (signed p).Forward :=
  forward_sign.many.bind fun _ => (forward_suffixed hp).bind fun _ => forward_pure _

theorem forward_binaryAt (ops : List (String × BinaryOp)) : (binaryAt ops p).Forward := by
  refine hp.chain (Forward.spaced (forward_firstOf ?_))
  simp only [List.forall_mem_map]
  exact fun op _ => (forward_token _).bind fun _ => forward_pure _

theorem forward_logicalAt (spelling : String) (op : LogicalOp) : (logicalAt spelling op p).Forward :=
  hp.chain ((forward_token _).bind fun _ => forward_pure _).spaced

theorem forward_coalescings : (coalescings p).Forward := by
  have hcomparisons : (comparisons p).Forward :=
    forward_binaryAt (forward_binaryAt (forward_binaryAt (forward_signed hp) _) _) _
  have hequalities : (equalities p).Forward := forward_binaryAt hcomparisons _
  exact forward_logicalAt (forward_logicalAt (forward_logicalAt hequalities _ _) _ _) _ _

theorem forward_branches : (branches p).Forward :=
  (forward_char _).spaced.bind fun _ => hp.bind fun _ => (forward_char _).spaced.bind fun _ =>
    hp.bind fun _ => forward_pure _

theorem forward_conditional : (conditional p).Forward :=
  (forward_coalescings hp).bind fun condition => (forward_branches hp).opt.bind fun
    | some (yes, no) => forward_pure (Expr.conditional condition yes no)
    | none => forward_pure condition

end

/-- Expressions of every depth leave an end of the text. -/
theorem forward_expression (depth : Nat) : (expression depth).Forward := by
  induction depth with
  | zero => exact forward_fail
  | succ depth ih => exact forward_conditional ih

end Grammar

end LiveDoc
