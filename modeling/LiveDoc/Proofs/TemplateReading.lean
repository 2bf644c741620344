import LiveDoc.Proofs.Lexing

/-! # Reading what was written

The grammar takes a written template apart again. An expression is read in front of whatever closes
what it stands in; parentheses keep the operators of an operand from those around it.
-/

namespace LiveDoc

namespace Grammar

open Scanner

variable {α : Type} {p : Scanner Expr} {e l r : Expr} {s : String} {c : Char} {cs rest left : List Char}

/-- The scanner reads the expression wherever it is written out. -/
def Reads (p : Scanner Expr) (e : Expr) : Prop :=
  ∀ rest, Closes rest → p (e.write ++ rest) = .accept e rest

/-- No expression starts with a blank or with what closes one. -/
def Starts (p : Scanner Expr) : Prop :=
  ∀ c cs, isBlank c = true ∨ c ∈ [')', ']', '\x7d', ','] → p.Refuses (c :: cs)

theorem Starts.refuses (hp : Starts p) (h : Closes rest) : p.Refuses rest := by
  obtain ⟨c, left, rfl, hc⟩ := h
  exact hp c left (.inr hc)

theorem Starts.solid (hp : Starts p) {cs : List Char} (h : p cs = .accept e rest) : Solid cs := by
  rintro c hc
  rw [Bool.eq_false_iff]
  intro hblank
  cases cs with
  | nil => cases hc
  | cons d cs =>
    obtain rfl : d = c := by simpa using hc
    obtain ⟨left, hl⟩ := hp d cs (.inl hblank)
    rw [hl] at h
    cases h

section

variable (hp : Starts p) (h : Reads p e)

include hp h

theorem spaced_append (hr : Closes rest) : spaced p (e.write ++ rest) = .accept e rest :=
  spaced_eq (hp.solid (h rest hr)).space (h rest hr) hr.solid.space

theorem bracketed_append (rest : List Char) :
    bracketed p ('[' :: (e.write ++ ']' :: rest)) = .accept e rest := by
  have hread := h _ (closes_cons (by decide : ']' ∈ _) rest)
  refine (bind_of_accept (char_cons _ _)).trans ?_
  refine (bind_of_accept (hp.solid hread).space).trans ?_
  refine (bind_of_accept hread).trans ?_
  exact bind_of_accept (close_eq (by decide) _)

theorem parenthesized_append (rest : List Char) :
    parenthesized p (inParens e.write ++ rest) = .accept e rest := by
  have hread := h _ (closes_cons (by decide : ')' ∈ _) rest)
  have htext : inParens e.write ++ rest = '(' :: (e.write ++ ')' :: rest) := by
    simp [inParens]
  rw [htext]
  refine (bind_of_accept (char_cons _ _)).trans ?_
  refine (bind_of_accept (hp.solid hread).space).trans ?_
  refine (bind_of_accept hread).trans ?_
  exact bind_of_accept (close_eq (by decide) _)

end

/-! ## Lists -/

theorem closes_tail {write : α → List Char} (items : List α) (hr : Closes rest) :
    Closes (items.flatMap (fun a => [',', ' '] ++ write a) ++ rest) := by
  cases items with
  | nil => exact hr
  | cons a items => exact closes_cons (by decide) _

theorem solid_listed {write : α → List Char} {items : List α}
    (h : ∀ a ∈ items, ∀ rest, Closes rest → Solid (write a ++ rest)) (hr : Closes rest) :
    Solid (listed (items.map write) ++ rest) := by
  cases items with
  | nil => exact hr.solid
  | cons a items =>
    rw [List.map_cons, listed, List.flatMap_map, List.append_assoc]
    exact h a List.mem_cons_self _ (closes_tail items hr)

/-- A list is read if each item is, first of all or behind a separator. -/
theorem listed_append {sep : Scanner Unit} {q : Scanner α} {write : α → List Char} (items : List α)
    (first : ∀ a ∈ items, ∀ rest, Closes rest → q (write a ++ rest) = .accept a rest)
    (next : ∀ a ∈ items, ∀ rest, Closes rest →
      (do sep; q) (',' :: ' ' :: (write a ++ rest)) = .accept a rest)
    (empty : q.Refuses rest) (stop : sep.Refuses rest) (hr : Closes rest) :
    separatedBy sep q (listed (items.map write) ++ rest) = .accept items rest := by
  cases items with
  | nil => exact separatedBy_nil empty
  | cons a items =>
    have htail : Repeats (do sep; q) (items.flatMap (fun a => [',', ' '] ++ write a) ++ rest) items rest := by
      apply Repeats.of_flatMap items _ _ _ hr (stop.bind _)
      · intro b hb rest hr
        exact next b (List.mem_cons_of_mem a hb) rest hr
      · intro b _
        exact List.cons_ne_nil _ _
      · intro b _ rest
        exact closes_cons (by decide) _
    rw [List.map_cons, listed, List.flatMap_map, List.append_assoc]
    exact separatedBy_cons (first a List.mem_cons_self _ (closes_tail items hr)) htail

section

variable (hp : Starts p)

include hp

theorem spaced_refuses (hr : Closes rest) : (spaced p).Refuses rest :=
  .bind_of_accept hr.solid.space ((hp.refuses hr).bind _)

/-- Items of an array and arguments of a call. -/
theorem items_append {items : List Expr} (h : ∀ e ∈ items, Reads p e) (hr : Closes rest)
    (hstop : (char ',').Refuses rest) :
    separatedBy (char ',') (spaced p) (listed (Expr.writeEach items) ++ rest) = .accept items rest := by
  rw [Expr.writeEach_eq]
  apply listed_append items _ _ (spaced_refuses hp hr) hstop hr
  · intro e he rest hr
    exact spaced_append hp (h e he) hr
  · intro e he rest hr
    refine (bind_of_accept (char_cons _ _)).trans ?_
    have hread := h e he rest hr
    exact spaced_eq (space_blank (hp.solid hread)) hread hr.solid.space

theorem array_append {items : List Expr} (h : ∀ e ∈ items, Reads p e) (rest : List Char) :
    array p ((Expr.array items).write ++ rest) = .accept (.array items) rest := by
  have htext : (Expr.array items).write ++ rest =
      '[' :: (listed (Expr.writeEach items) ++ ']' :: rest) := by
    simp [Expr.write]
  have hr : Closes (']' :: rest) := closes_cons (by decide) rest
  have hsolid : Solid (listed (Expr.writeEach items) ++ ']' :: rest) := by
    rw [Expr.writeEach_eq]
    apply solid_listed _ hr
    intro e he rest hr
    exact hp.solid (h e he rest hr)
  rw [htext]
  refine (bind_of_accept (char_cons _ _)).trans ?_
  refine (bind_of_accept hsolid.space).trans ?_
  refine (bind_of_accept (items_append hp h hr ⟨_, rfl⟩)).trans ?_
  exact bind_of_accept (close_eq (by decide) _)

theorem entry_append {pair : String × Expr} (h : Reads p pair.2) (hr : Closes rest) :
    entry p (writeEntry pair ++ rest) = .accept pair rest := by
  have htext : writeEntry pair ++ rest =
      quotedText pair.1 ++ (':' :: ' ' :: (pair.2.write ++ rest)) := by
    simp [writeEntry]
  have hread := h rest hr
  have hcolon : Solid (':' :: ' ' :: (pair.2.write ++ rest)) := by
    rintro c ⟨⟩
    decide
  rw [htext]
  refine (bind_of_accept (orElse_of_accept (quoted_append pair.1 _))).trans ?_
  refine (bind_of_accept
    (spaced_eq hcolon.space (char_cons _ _) (space_blank (hp.solid hread)))).trans ?_
  exact bind_of_accept hread

theorem object_append {entries : List (String × Expr)} (h : ∀ pair ∈ entries, Reads p pair.2)
    (rest : List Char) : object p ((Expr.object entries).write ++ rest) = .accept (.object entries) rest := by
  have htext : (Expr.object entries).write ++ rest =
      '\x7b' :: (listed (entries.map writeEntry) ++ '\x7d' :: rest) := by
    simp [Expr.write, Expr.writeEntries_eq]
  have hr : Closes ('\x7d' :: rest) := closes_cons (by decide) rest
  have hquote (pair : String × Expr) (rest : List Char) : Solid (writeEntry pair ++ rest) := by
    rintro c ⟨⟩
    decide
  have hentries : separatedBy (spaced (char ',')) (entry p)
      (listed (entries.map writeEntry) ++ '\x7d' :: rest) = .accept entries ('\x7d' :: rest) := by
    have hempty : (entry p).Refuses ('\x7d' :: rest) := ⟨_, rfl⟩
    have hstop : (spaced (char ',')).Refuses ('\x7d' :: rest) := ⟨_, rfl⟩
    apply listed_append entries _ _ hempty hstop hr
    · intro pair hpair rest hr
      exact entry_append hp (h pair hpair) hr
    · intro pair hpair rest hr
      have hcomma : Solid (',' :: ' ' :: (writeEntry pair ++ rest)) := by
        rintro c ⟨⟩
        decide
      refine (bind_of_accept
        (spaced_eq hcomma.space (char_cons _ _) (space_blank (hquote pair rest)))).trans ?_
      exact entry_append hp (h pair hpair) hr
  rw [htext]
  refine (bind_of_accept (char_cons _ _)).trans ?_
  refine (bind_of_accept (solid_listed (fun pair _ rest _ => hquote pair rest) hr).space).trans ?_
  refine (bind_of_accept hentries).trans ?_
  exact bind_of_accept (close_eq (by decide) _)

/-! ## References and calls -/

theorem refTail_append {steps : List RefStep} (hs : ∀ step ∈ steps, step.WellFormed)
    (h : ∀ e, .at e ∈ steps → Reads p e) (hr : EndsOperand rest) :
    refTail p (RefStep.writeAll steps ++ rest) = .accept steps rest := by
  rw [RefStep.writeAll_eq]
  apply Repeats.many_eq
  apply Repeats.of_flatMap steps _ _ _ hr.word
  · have hmember : (char '.').Refuses rest := char_refuses hr.member
    have hindex : (char '[').Refuses rest := char_refuses hr.index
    exact ((hmember.bind _).bind _).orElse ((hindex.bind _).bind _)
  · intro step hstep rest hrest
    cases hs step hstep with
    | key word =>
      apply orElse_of_accept
      exact bind_of_accept (dotted_append (keyWord_append word hrest))
    | @«at» e index =>
      have hdot : (dotted keyWord).Refuses ((RefStep.at e).write ++ rest) := ⟨_, rfl⟩
      have htext : (RefStep.at e).write ++ rest = '[' :: (e.write ++ ']' :: rest) := by
        simp [RefStep.write]
      refine ((hdot.bind _).orElse_eq _).trans ?_
      rw [htext]
      exact bind_of_accept (bracketed_append hp (h e hstep) rest)
  · intro step _
    cases step <;> exact List.cons_ne_nil _ _
  · intro step _ rest
    cases step <;> exact endsWord_cons (by decide) _

end

/-- No word goes on behind a step of a reference or behind the last. -/
theorem endsWord_steps (steps : List RefStep) (hr : EndsWord rest) :
    EndsWord (RefStep.writeAll steps ++ rest) := by
  rw [RefStep.writeAll_eq]
  apply behind_flatMap steps _ hr
  intro step _ rest
  cases step <;> exact endsWord_cons (by decide) _

/-- A way up is read to its end. -/
theorem repeats_writeParents (n : Nat) (hr : cs.head? ≠ some '^') :
    Repeats (do char '^'; char '.') (writeParents n ++ cs) (List.replicate n ()) cs :=
  .of_flatMap _ (fun _ _ _ (_ : True) => rfl) (fun _ _ => List.cons_ne_nil _ _) (fun _ _ _ => trivial)
    trivial ((char_refuses hr).bind _)

section

variable {parents : Nat} {first name : String} {steps : List RefStep} {args : List Expr}

theorem climbing_append (hp : Starts p) (word : IsKeyWord first) (hs : ∀ step ∈ steps, step.WellFormed)
    (h : ∀ e, .at e ∈ steps → Reads p e) (hr : EndsOperand rest) :
    climbing p ((Expr.ref (parents + 1) (.key first :: steps)).write ++ rest) =
      .accept (.ref (parents + 1) (.key first :: steps)) rest := by
  have htext : (Expr.ref (parents + 1) (.key first :: steps)).write ++ rest =
      '^' :: '.' :: (writeParents parents ++
        (first.toList ++ (RefStep.writeAll steps ++ rest))) := by
    simp [Expr.write, RefStep.writeAll, writeParents, List.replicate_succ]
  have hhead : (first.toList ++ (RefStep.writeAll steps ++ rest)).head? ≠ some '^' := by
    intro hc
    have hword := isWordChar_head word _ _ hc
    revert hword
    decide
  have hup : some₁ (do char '^'; char '.') ('^' :: '.' :: (writeParents parents ++
      (first.toList ++ (RefStep.writeAll steps ++ rest)))) =
        .accept (() :: List.replicate parents ()) (first.toList ++ (RefStep.writeAll steps ++ rest)) :=
    bind_of_accept (repeats_writeParents parents hhead).many_eq
  rw [htext]
  refine (bind_of_accept hup).trans ?_
  refine (bind_of_accept (keyWord_append word (endsWord_steps steps hr.word))).trans ?_
  refine (bind_of_accept (refTail_append hp hs h hr)).trans ?_
  rw [List.length_cons, List.length_replicate]
  rfl

/-- What starts with a word that is no literal is a call or a reference. -/
theorem named_append (h : IsFirstWord first) (hr : EndsWord rest) :
    named p (first.toList ++ rest) = (do
      match ← (callHead first).opt with
      | some name => return callOf name (← arguments p)
      | none => return .ref 0 (.key first :: (← refTail p)) : Scanner Expr) rest := by
  obtain ⟨hword, hother⟩ := h
  simp only [List.mem_cons, List.not_mem_nil, or_false, not_or] at hother
  obtain ⟨htrue, hfalse, hnull⟩ := hother
  refine (bind_of_accept (identifier_append hword hr)).trans ?_
  refine (congrFun (if_neg htrue) rest).trans ?_
  refine (congrFun (if_neg hfalse) rest).trans ?_
  exact congrFun (if_neg hnull) rest

/-- Behind a reference no call starts, though words may come first. -/
theorem callHead_refuses (hs : ∀ step ∈ steps, step.WellFormed) (hr : EndsOperand rest) :
    (callHead first).Refuses (RefStep.writeAll steps ++ rest) := by
  have hwords : ∃ words left, Repeats (dotted identifier) (RefStep.writeAll steps ++ rest) words left ∧
      (close '(').Refuses left := by
    induction steps with
    | nil =>
      have hmember : (char '.').Refuses rest := char_refuses hr.member
      exact ⟨[], rest, .done (hmember.bind _), hr.call⟩
    | cons step steps ih =>
      obtain ⟨words, left, hwords, hleft⟩ := ih fun step h => hs step (List.mem_cons_of_mem _ h)
      cases hs step List.mem_cons_self with
      | @key k word =>
        have htext : RefStep.writeAll (.key k :: steps) ++ rest =
            '.' :: (k.toList ++ (RefStep.writeAll steps ++ rest)) := by
          simp [RefStep.writeAll]
        rw [htext]
        obtain ⟨c, cs, hk⟩ := List.exists_cons_of_ne_nil word.1
        cases hc : isWordStart c with
        | true =>
          have hstart : IsIdentifier k := ⟨word, by rw [hk]; rintro d ⟨⟩; exact hc⟩
          have hread := dotted_append (identifier_append hstart (endsWord_steps steps hr.word))
          have hshort : (RefStep.writeAll steps ++ rest).length <
              ('.' :: (k.toList ++ (RefStep.writeAll steps ++ rest))).length := by
            simp only [List.length_cons, List.length_append]
            omega
          exact ⟨k :: words, left, .more hread hshort hwords, hleft⟩
        | false =>
          refine ⟨[], _, .done (.bind_of_accept (char_cons _ _) (identifier_refuses ?_)), _, rfl⟩
          rw [hk]
          rintro d ⟨⟩
          exact hc
      | «at» index => exact ⟨[], _, .done ⟨_, rfl⟩, _, rfl⟩
  obtain ⟨words, left, hwords, hleft⟩ := hwords
  exact .bind_of_accept hwords.many_eq (hleft.bind _)

theorem named_ref (hp : Starts p) (word : IsFirstWord first) (hs : ∀ step ∈ steps, step.WellFormed)
    (h : ∀ e, .at e ∈ steps → Reads p e) (hr : EndsOperand rest) :
    named p ((Expr.ref 0 (.key first :: steps)).write ++ rest) =
      .accept (.ref 0 (.key first :: steps)) rest := by
  have htext : (Expr.ref 0 (.key first :: steps)).write ++ rest =
      first.toList ++ (RefStep.writeAll steps ++ rest) := by
    simp [Expr.write, RefStep.writeAll, writeParents]
  rw [htext]
  refine (named_append word (endsWord_steps steps hr.word)).trans ?_
  refine (bind_of_accept (callHead_refuses hs hr).opt).trans ?_
  exact bind_of_accept (refTail_append hp hs h hr)

theorem toList_callName (first : String) (rest : List String) :
    (".".intercalate (first :: rest)).toList = first.toList ++ rest.flatMap fun w => '.' :: w.toList := by
  induction rest generalizing first with
  | nil => simp
  | cons w rest ih =>
    rw [String.intercalate_cons_cons, String.toList_append, String.toList_append, ih, List.flatMap_cons]
    simp

theorem named_call (hp : Starts p) (hname : IsCallName name) (h : ∀ e ∈ args, Reads p e)
    (rest : List Char) : named p (name.toList ++ inParens (listed (Expr.writeEach args)) ++ rest) =
      .accept (callOf name args) rest := by
  obtain ⟨first, words, rfl, hfirst, hwords⟩ := hname
  have htext : (".".intercalate (first :: words)).toList ++ inParens (listed (Expr.writeEach args)) ++ rest =
      first.toList ++ (words.flatMap (fun w => '.' :: w.toList) ++
        '(' :: (listed (Expr.writeEach args) ++ ')' :: rest)) := by
    rw [toList_callName]
    simp [inParens]
  have hopen : EndsWord ('(' :: (listed (Expr.writeEach args) ++ ')' :: rest)) :=
    endsWord_cons (by decide) _
  have hdot (w : String) (_ : w ∈ words) (rest : List Char) : EndsWord (('.' :: w.toList) ++ rest) :=
    endsWord_cons (by decide) _
  have hhead : callHead first (words.flatMap (fun w => '.' :: w.toList) ++
      '(' :: (listed (Expr.writeEach args) ++ ')' :: rest)) =
        .accept (".".intercalate (first :: words)) (listed (Expr.writeEach args) ++ ')' :: rest) := by
    have hstop : (dotted identifier).Refuses ('(' :: (listed (Expr.writeEach args) ++ ')' :: rest)) :=
      ⟨_, rfl⟩
    have hmore : Repeats (dotted identifier) (words.flatMap (fun w => '.' :: w.toList) ++
        '(' :: (listed (Expr.writeEach args) ++ ')' :: rest)) words
          ('(' :: (listed (Expr.writeEach args) ++ ')' :: rest)) := by
      apply Repeats.of_flatMap words _ _ hdot hopen hstop
      · intro w hw rest hr
        exact dotted_append (identifier_append (hwords w hw) hr)
      · intro w _
        exact List.cons_ne_nil _ _
    refine (bind_of_accept hmore.many_eq).trans ?_
    exact bind_of_accept (close_eq (by decide) _)
  rw [htext]
  refine (named_append hfirst (behind_flatMap words hdot hopen)).trans ?_
  refine (bind_of_accept (opt_of_accept hhead)).trans ?_
  refine (bind_of_accept ?_).trans rfl
  have hclose : Closes (')' :: rest) := closes_cons (by decide) rest
  refine (bind_of_accept (items_append hp h hclose ⟨_, rfl⟩)).trans ?_
  exact bind_of_accept (close_eq (by decide) _)

theorem callOf_eq (h : name = "fresh" → ∀ parents steps, args ≠ [.ref parents steps]) :
    callOf name args = .call name args := by
  unfold callOf
  split
  · next parents steps =>
    rw [if_neg]
    intro hname
    exact h hname parents steps rfl
  · rfl

end

end Grammar

end LiveDoc
