import LiveDoc.Proofs.OperatorReading

/-! # Reading the parts of templates

A written text comes back in pieces, since its signs are escaped one by one; put together again the parts
are those of the template, in which no two texts are side by side.
-/

namespace LiveDoc

namespace Grammar

open Scanner

variable {p : Scanner Expr} {e : Expr} {c : Char} {cs rest left : List Char}
  {closing : Option Char} {xs t : List Part}

/-- The parts are read one after the other up to the end. -/
inductive Gathers (p : Scanner Expr) (closing : Option Char) :
    List Char → List Part → List Char → Prop where
  | stop {rest : List Char} (ends : rest.head? = closing) : Gathers p closing rest [] rest
  | more {cs rest left : List Char} {x : Part} {xs : List Part} (opens : cs.head? ≠ closing)
    (reads : part p closing cs = .accept x rest) (shorter : rest.length < cs.length)
    (gathers : Gathers p closing rest xs left) : Gathers p closing cs (x :: xs) left

theorem Gathers.partsUpTo_eq (h : Gathers p closing cs xs left) {n : Nat} (hn : cs.length ≤ n) :
    partsUpTo p closing n cs = .accept xs left := by
  induction h generalizing n with
  | @stop rest ends =>
    cases n with
    | zero => rfl
    | succ n =>
      cases rest with
      | nil => rfl
      | cons c rest =>
        rw [partsUpTo]
        exact if_pos ends
  | @more cs rest left x xs opens reads shorter gathers ih =>
    obtain ⟨n, rfl⟩ : ∃ m, n = m + 1 := Nat.exists_eq_succ_of_ne_zero (by omega)
    cases cs with
    | nil => exact absurd shorter (Nat.not_lt_zero _)
    | cons c cs =>
      rw [partsUpTo]
      refine (if_neg opens).trans ?_
      refine (bind_of_accept reads).trans ?_
      exact bind_of_accept (ih (by omega))

theorem Gathers.template_eq (h : Gathers p closing cs xs left) :
    template p closing cs = .accept (.ofParts xs) left :=
  bind_of_accept (h.partsUpTo_eq (Nat.le_refl cs.length))

/-- The end of the text, or the character that encloses a template. -/
def IsClosing (closing : Option Char) : Prop :=
  closing = none ∨ closing = some backTick

theorem ne_closing (hclosing : IsClosing closing) (hc : c ≠ backTick) (hhead : cs.head? = some c) :
    cs.head? ≠ closing := by
  rw [hhead]
  rcases hclosing with rfl | rfl
  · exact Option.some_ne_none c
  · rintro ⟨⟩
    exact hc rfl

/-- No plain text goes on here. -/
def AtSign (closing : Option Char) (cs : List Char) : Prop :=
  ∀ c ∈ cs.head?, (c != '$' && c != '\x5c' && some c != closing) = false

theorem part_escape (hc : isSign c = true) (cs : List Char) :
    part p closing ('\x5c' :: c :: cs) = .accept (.text (String.ofList [c])) cs := by
  apply firstOf_of_accept
  refine (bind_of_accept (char_cons _ _)).trans ?_
  exact bind_of_accept (one_cons hc)

theorem part_span (hp : Starts p) (h : Reads p e) (rest : List Char) :
    part p closing ((Part.span e).write ++ rest) = .accept (.span e) rest := by
  have htext : (Part.span e).write ++ rest = ['$', '\x7b'] ++ (e.write ++ '\x7d' :: rest) := by
    simp [Part.write]
  have hescape : ∀ q ∈ [escape], q.Refuses (['$', '\x7b'] ++ (e.write ++ '\x7d' :: rest)) := by
    simp only [List.forall_mem_cons]
    exact ⟨⟨_, rfl⟩, List.forall_mem_nil _⟩
  rw [htext]
  refine firstOf_of_refuses hescape ?_ _
  refine (bind_of_accept (token_append _ _)).trans ?_
  apply commit_of_accept
  refine (bind_of_accept (spaced_append hp h (closes_cons (by decide) rest))).trans ?_
  exact bind_of_accept (char_cons _ _)

theorem ne_of_isSign (h : isSign c = false) : c ≠ '$' ∧ c ≠ '\x5c' ∧ c ≠ backTick := by
  simpa [isSign, and_assoc] using h

theorem part_plain (hclosing : IsClosing closing) (hne : cs ≠ []) (hall : ∀ c ∈ cs, isSign c = false)
    (hr : AtSign closing rest) : part p closing (cs ++ rest) = .accept (.text (String.ofList cs)) rest := by
  have hplain : ∀ c ∈ cs, (c != '$' && c != '\x5c' && some c != closing) = true := by
    intro c hc
    obtain ⟨hdollar, hslash, htick⟩ := ne_of_isSign (hall c hc)
    rcases hclosing with rfl | rfl <;> simp [hdollar, hslash, htick]
  have hrun := run₁_append hplain hne hr
  obtain ⟨c, cs, rfl⟩ := List.exists_cons_of_ne_nil hne
  obtain ⟨hdollar, hslash, -⟩ := ne_of_isSign (hall c List.mem_cons_self)
  have hnoDollar : (c :: cs ++ rest).head? ≠ some '$' := by simpa using hdollar
  have hnoSlash : (c :: cs ++ rest).head? ≠ some '\x5c' := by simpa using hslash
  have hbefore : ∀ q ∈ [escape, span p, (do char '$'; return .text "$" : Scanner Part),
      (do char '\x5c'; return .text "\x5c" : Scanner Part)], q.Refuses (c :: cs ++ rest) := by
    simp only [List.forall_mem_cons]
    exact ⟨(char_refuses hnoSlash).bind _, (token_refuses hnoDollar).bind _,
      (char_refuses hnoDollar).bind _, (char_refuses hnoSlash).bind _, List.forall_mem_nil _⟩
  refine firstOf_of_refuses hbefore ?_ []
  exact bind_of_accept hrun

theorem ofParts_span (e : Expr) (xs : List Part) :
    Template.ofParts (.span e :: xs) = .span e :: Template.ofParts xs := by
  show Template.consPart (.span e) (Template.ofParts xs) = _
  cases Template.ofParts xs with
  | nil => rfl
  | cons x t => cases x <;> rfl

/-- A text in front of a template. -/
def textThen (cs : List Char) (t : Template) : Template :=
  if cs = [] then t else .text (String.ofList cs) :: t

theorem consPart_textThen {run : List Char} (hne : run ≠ []) (ht : ∀ x ∈ t.head?, x.isText = false)
    (cs : List Char) :
    Template.consPart (.text (String.ofList run)) (textThen cs t) = textThen (run ++ cs) t := by
  have happend : run ++ cs ≠ [] := List.append_ne_nil_of_left_ne_nil hne cs
  rw [textThen, textThen, if_neg happend]
  by_cases hcs : cs = []
  · subst hcs
    rw [if_pos rfl, List.append_nil]
    cases t with
    | nil => rfl
    | cons x t =>
      cases x with
      | text s => cases ht _ rfl
      | span e => rfl
  · rw [if_neg hcs, String.ofList_append]
    rfl

theorem flatMap_plainChar {run : List Char} (h : ∀ c ∈ run, isSign c = false) :
    run.flatMap plainChar = run := by
  induction run with
  | nil => rfl
  | cons c run ih =>
    obtain ⟨hc, hrun⟩ := List.forall_mem_cons.1 h
    rw [List.flatMap_cons, ih hrun, plainChar, hc]
    rfl

theorem atSign_plainText (hr : AtSign closing rest) {cs : List Char}
    (h : ∀ c ∈ cs.head?, isSign c = true) : AtSign closing (cs.flatMap plainChar ++ rest) := by
  cases cs with
  | nil => exact hr
  | cons c cs =>
    rw [List.flatMap_cons, plainChar, if_pos (h c rfl)]
    rintro d ⟨⟩
    rfl

/-- A text is plain up to its first sign. -/
theorem exists_plain_run (cs : List Char) : ∃ run later, run ++ later = cs ∧
    (∀ c ∈ run, isSign c = false) ∧ ∀ c ∈ later.head?, isSign c = true := by
  induction cs with
  | nil => exact ⟨[], [], rfl, List.forall_mem_nil _, fun _ h => nomatch h⟩
  | cons c cs ih =>
    cases hc : isSign c with
    | true =>
      refine ⟨[], c :: cs, rfl, List.forall_mem_nil _, ?_⟩
      rintro d ⟨⟩
      exact hc
    | false =>
      obtain ⟨run, later, rfl, hrun, hlater⟩ := ih
      exact ⟨c :: run, later, rfl, List.forall_mem_cons.2 ⟨hc, hrun⟩, hlater⟩

/-- A piece of a text is read in front of what makes up the rest of it. -/
theorem gathers_piece {text tail run cs : List Char} {ys : List Part}
    (reads : part p closing (text ++ tail) = .accept (.text (String.ofList run)) tail)
    (opens : (text ++ tail).head? ≠ closing) (visible : text ≠ []) (hne : run ≠ [])
    (ht : ∀ x ∈ t.head?, x.isText = false) (h : Gathers p closing tail ys left)
    (hparts : Template.ofParts ys = textThen cs t) :
    ∃ ys, Gathers p closing (text ++ tail) ys left ∧ Template.ofParts ys = textThen (run ++ cs) t := by
  refine ⟨.text (String.ofList run) :: ys, .more opens reads ?_ h, ?_⟩
  · have hpos := List.length_pos_iff.2 visible
    rw [List.length_append]
    omega
  · exact (congrArg (Template.consPart _) hparts).trans (consPart_textThen hne ht cs)

/-- A written text is read in pieces that make it up again: its signs one by one, and what stands
between them. -/
theorem gathers_text (hclosing : IsClosing closing) (h : Gathers p closing rest xs left)
    (hr : AtSign closing rest) (ht : ∀ x ∈ (Template.ofParts xs).head?, x.isText = false) (cs : List Char) :
    ∃ ys, Gathers p closing (cs.flatMap plainChar ++ rest) ys left ∧
      Template.ofParts ys = textThen cs (Template.ofParts xs) := by
  induction hn : cs.length using Nat.strongRecOn generalizing cs with
  | ind n ih =>
    cases cs with
    | nil => exact ⟨xs, h, rfl⟩
    | cons c cs =>
      rw [List.length_cons] at hn
      cases hc : isSign c with
      | true =>
        obtain ⟨ys, hys, hparts⟩ := ih cs.length (by omega) cs rfl
        have htext : (c :: cs).flatMap plainChar ++ rest = ['\x5c', c] ++ (cs.flatMap plainChar ++ rest) := by
          rw [List.flatMap_cons, plainChar, if_pos hc, List.append_assoc]
        rw [htext]
        exact gathers_piece (part_escape hc _) (ne_closing hclosing (by decide) rfl) (List.cons_ne_nil _ _)
          (List.cons_ne_nil c []) ht hys hparts
      | false =>
        obtain ⟨run, later, rfl, hrun, hlater⟩ := exists_plain_run cs
        rw [List.length_append] at hn
        obtain ⟨ys, hys, hparts⟩ := ih later.length (by omega) later rfl
        have hplain : ∀ d ∈ c :: run, isSign d = false := List.forall_mem_cons.2 ⟨hc, hrun⟩
        have htext : (c :: (run ++ later)).flatMap plainChar ++ rest =
            (c :: run) ++ (later.flatMap plainChar ++ rest) := by
          rw [← List.cons_append, List.flatMap_append, flatMap_plainChar hplain, List.append_assoc]
        have hread := part_plain (p := p) hclosing (List.cons_ne_nil c run) hplain
          (atSign_plainText hr hlater)
        rw [htext]
        exact gathers_piece hread (ne_closing hclosing (ne_of_isSign hc).2.2 rfl) (List.cons_ne_nil c run)
          (List.cons_ne_nil c run) ht hys hparts

/-- The parts of a template are read, whatever encloses it. -/
theorem gathers_write (hp : Starts p) (hclosing : IsClosing closing) (hrest : rest.head? = closing)
    (each : ∀ x ∈ t, x.WellFormed) (apart : t.IsChain Part.Apart) (h : ∀ e, .span e ∈ t → Reads p e) :
    ∃ xs, Gathers p closing (Part.writeAll t ++ rest) xs rest ∧ Template.ofParts xs = t := by
  induction t with
  | nil => exact ⟨[], .stop hrest, rfl⟩
  | cons x t ih =>
    obtain ⟨hx, each⟩ := List.forall_mem_cons.1 each
    obtain ⟨hfirst, apart⟩ := List.isChain_cons.1 apart
    obtain ⟨xs, hxs, ht⟩ := ih each apart fun e he => h e (List.mem_cons_of_mem x he)
    rw [Part.writeAll_cons, List.append_assoc]
    cases hx with
    | @span e expression =>
      refine ⟨.span e :: xs, ?_, ht ▸ ofParts_span e xs⟩
      have hshort : (Part.writeAll t ++ rest).length <
          ((Part.span e).write ++ (Part.writeAll t ++ rest)).length := by
        simp [Part.write]
        omega
      exact .more (ne_closing hclosing (by decide : '$' ≠ backTick) rfl)
        (part_span hp (h e List.mem_cons_self) _) hshort hxs
    | @text s visible =>
      have hsign : AtSign closing (Part.writeAll t ++ rest) := by
        cases t with
        | nil =>
          intro c hc
          have hclose : some c = closing := hc.symm.trans hrest
          simp [hclose]
        | cons x t =>
          cases x with
          | text s' => cases hfirst _ rfl
          | span e =>
            rintro c ⟨⟩
            rfl
      have hnext : ∀ x ∈ (Template.ofParts xs).head?, x.isText = false := by
        rw [ht]
        intro x hx
        simpa [Part.Apart, Part.isText] using hfirst x hx
      obtain ⟨ys, hys, hparts⟩ := gathers_text hclosing hxs hsign hnext s.toList
      refine ⟨ys, hys, ?_⟩
      have hne : s.toList ≠ [] := by simpa using visible
      rw [hparts, ht, textThen, if_neg hne, String.ofList_toList]

theorem template_append (hp : Starts p) (hclosing : IsClosing closing) (hrest : rest.head? = closing)
    (each : ∀ x ∈ t, x.WellFormed) (apart : t.IsChain Part.Apart) (h : ∀ e, .span e ∈ t → Reads p e) :
    template p closing (Part.writeAll t ++ rest) = .accept t rest := by
  obtain ⟨xs, hxs, rfl⟩ := gathers_write hp hclosing hrest each apart h
  exact hxs.template_eq

theorem backTicked_append (hp : Starts p) (each : ∀ x ∈ t, x.WellFormed) (apart : t.IsChain Part.Apart)
    (h : ∀ e, .span e ∈ t → Reads p e) (rest : List Char) :
    backTicked p ((Expr.template t).write ++ rest) = .accept (.template t) rest := by
  have htext : (Expr.template t).write ++ rest = backTick :: (Part.writeAll t ++ backTick :: rest) := by
    simp [Expr.write]
  rw [htext]
  refine (bind_of_accept (char_cons _ _)).trans ?_
  refine (bind_of_accept (template_append hp (.inr rfl) rfl each apart h)).trans ?_
  exact bind_of_accept (char_cons _ _)

end Grammar

end LiveDoc
