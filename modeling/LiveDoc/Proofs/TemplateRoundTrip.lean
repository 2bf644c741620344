import LiveDoc.Proofs.ChainReading
import LiveDoc.Proofs.PartReading

/-! # Templates are read back

What is written for a template parses as that template. The measure is the length of the text: one level
further in, a scanner reads what is shorter by one.
-/

namespace LiveDoc

namespace Grammar

open Scanner

variable {p : Scanner Expr} {e : Expr} {cs rest : List Char}

/-! ## Expressions -/

theorem primary_of_word {word : String} (hw : IsIdentifier word)
    (hn : named p (word.toList ++ cs) = .accept e rest) :
    primary p (word.toList ++ cs) = .accept e rest := by
  apply primary_of_named _ (List.append_ne_nil_of_left_ne_nil hw.1.1 cs) hn
  intro c hc
  rw [List.head?_append_of_ne_nil _ hw.1.1] at hc
  exact hw.2 c hc

theorem isIdentifier_null : IsIdentifier "null" :=
  isIdentifier_of_toList rfl (by decide) (by decide)

theorem isIdentifier_false : IsIdentifier "false" :=
  isIdentifier_of_toList rfl (by decide) (by decide)

theorem isIdentifier_true : IsIdentifier "true" :=
  isIdentifier_of_toList rfl (by decide) (by decide)

theorem named_null (hr : EndsWord rest) :
    named p ("null".toList ++ rest) = .accept (.lit .null) rest := by
  refine (bind_of_accept (identifier_append isIdentifier_null hr)).trans ?_
  rw [if_neg (by decide), if_neg (by decide), if_pos rfl]
  rfl

theorem named_bool (b : Bool) (hr : EndsWord rest) :
    named p ((Value.bool b).write ++ rest) = .accept (.lit (.bool b)) rest := by
  cases b with
  | false =>
    refine (bind_of_accept (identifier_append isIdentifier_false hr)).trans ?_
    rw [if_neg (by decide), if_pos rfl]
    rfl
  | true =>
    refine (bind_of_accept (identifier_append isIdentifier_true hr)).trans ?_
    rw [if_pos rfl]
    rfl

theorem primary_lit {v : Value} (h : v.WellFormed) (hr : Closes rest) :
    primary p ((Expr.lit v).write ++ rest) = .accept (.lit v) rest := by
  cases v with
  | null => exact primary_of_word isIdentifier_null (named_null hr.endsWord)
  | bool b =>
    have hnamed := named_bool (p := p) b hr.endsWord
    cases b with
    | false => exact primary_of_word isIdentifier_false hnamed
    | true => exact primary_of_word isIdentifier_true hnamed
  | num n =>
    cases n with
    | int i =>
      obtain ⟨hi, hlt⟩ := h
      lift i to Nat using hi
      have htext : (Expr.lit (.num (.int i))).write = Nat.toDigits 10 i := Number.toList_text_int i
      rw [htext]
      exact firstOf_of_accept (number_append (by omega) hr.endsOperand) _
    | float f => cases h
  | str s =>
    have hnumber : ∀ q ∈ [number], q.Refuses (quotedText s ++ rest) := by
      simp only [List.forall_mem_cons]
      exact ⟨⟨_, rfl⟩, List.forall_mem_nil _⟩
    refine firstOf_of_refuses hnumber ?_ _
    exact bind_of_accept (quoted_append s rest)
  | arr items => cases h
  | obj members => cases h

theorem primary_ref {parents : Nat} {first : String} {steps : List RefStep} (hp : Starts p)
    (word : IsKeyWord first) (opens : parents = 0 → IsFirstWord first)
    (each : ∀ step ∈ steps, step.WellFormed) (h : ∀ e, .at e ∈ steps → Reads p e)
    (hr : EndsOperand rest) :
    primary p ((Expr.ref parents (.key first :: steps)).write ++ rest) =
      .accept (.ref parents (.key first :: steps)) rest := by
  cases parents with
  | zero =>
    have hnamed := named_ref hp (opens rfl) each h hr
    have htext : (Expr.ref 0 (.key first :: steps)).write ++ rest =
        first.toList ++ (RefStep.writeAll steps ++ rest) := by
      simp [Expr.write, RefStep.writeAll, writeParents]
    rw [htext] at hnamed ⊢
    exact primary_of_word (opens rfl).1 hnamed
  | succ parents =>
    have hbefore : ∀ q ∈ [number, quotedLit, backTicked p, array p, object p, parenthesized p],
        q.Refuses ((Expr.ref (parents + 1) (.key first :: steps)).write ++ rest) := by
      simp only [List.forall_mem_cons]
      exact ⟨⟨_, rfl⟩, ⟨_, rfl⟩, ⟨_, rfl⟩, ⟨_, rfl⟩, ⟨_, rfl⟩, ⟨_, rfl⟩, List.forall_mem_nil _⟩
    exact firstOf_of_refuses hbefore (climbing_append hp word each h hr) _

theorem conditional_of_primary (hc : primary p cs = .accept e rest) (hr : Closes rest) :
    conditional p cs = .accept e rest :=
  conditional_of_signed (signed_of_primary hc (suffix_refuses hr.endsOperand)) hr.ends

/-- The scanner reads every expression whose text is short enough, and any such expression in
parentheses. -/
structure Reader (p : Scanner Expr) (n : Nat) : Prop where
  starts : Starts p
  reads : ∀ e : Expr, e.WellFormed → e.write.length < n → Reads p e
  grouped : ∀ e : Expr, e.WellFormed → e.write.length + 1 < n →
    ∀ rest, Ends rest → p (inParens e.write ++ rest) = .accept e rest

theorem Reader.fail : Reader Scanner.fail 0 where
  starts _ _ _ := ⟨_, rfl⟩
  reads _ _ h := absurd h (Nat.not_lt_zero _)
  grouped _ _ h := absurd h (Nat.not_lt_zero _)

namespace Reader

variable {n : Nat} (h : Reader p n)

include h

theorem spans {parts : List Part} (each : ∀ x ∈ parts, x.WellFormed)
    (hn : (Part.writeAll parts).length ≤ n) : ∀ e, .span e ∈ parts → Reads p e := by
  intro e he
  have hshort := length_lt_writeAll_parts he
  cases each _ he with
  | span expression => exact h.reads e expression (by omega)

theorem steps {steps : List RefStep} (each : ∀ step ∈ steps, step.WellFormed)
    (hn : (RefStep.writeAll steps).length ≤ n) : ∀ e, .at e ∈ steps → Reads p e := by
  intro e he
  have hshort := length_lt_writeAll_steps he
  cases each _ he with
  | «at» index => exact h.reads e index (by omega)

theorem items {items : List Expr} (each : ∀ e ∈ items, e.WellFormed)
    (hn : (listed (Expr.writeEach items)).length < n) : ∀ e ∈ items, Reads p e := by
  intro e he
  rw [Expr.writeEach_eq] at hn
  have hshort := length_le_listed (List.mem_map_of_mem he : e.write ∈ items.map Expr.write)
  exact h.reads e (each e he) (by omega)

theorem entries {entries : List (String × Expr)} (each : ∀ pair ∈ entries, pair.2.WellFormed)
    (hn : (listed (Expr.writeEntries entries)).length < n) : ∀ pair ∈ entries, Reads p pair.2 := by
  intro pair hpair
  rw [Expr.writeEntries_eq] at hn
  have hshort := length_le_listed (List.mem_map_of_mem hpair : writeEntry pair ∈ entries.map writeEntry)
  have hentry : pair.2.write.length < (writeEntry pair).length := by
    simp [writeEntry]
    omega
  exact h.reads pair.2 (each pair hpair) (by omega)

theorem reads_template {parts : List Part} (each : ∀ x ∈ parts, x.WellFormed)
    (apart : parts.IsChain Part.Apart) (hn : (Expr.template parts).write.length ≤ n) :
    Reads (conditional p) (.template parts) := by
  intro rest hr
  have hspans := h.spans each (by simp [Expr.write] at hn; omega)
  have hbefore : ∀ q ∈ [number, quotedLit], q.Refuses ((Expr.template parts).write ++ rest) := by
    simp only [List.forall_mem_cons]
    exact ⟨⟨_, rfl⟩, ⟨_, rfl⟩, List.forall_mem_nil _⟩
  apply conditional_of_primary _ hr
  exact firstOf_of_refuses hbefore (backTicked_append h.starts each apart hspans rest) _

theorem reads_array {items : List Expr} (each : ∀ e ∈ items, e.WellFormed)
    (hn : (Expr.array items).write.length ≤ n) : Reads (conditional p) (.array items) := by
  intro rest hr
  have hitems := h.items each (by simp [Expr.write] at hn; omega)
  have hbefore : ∀ q ∈ [number, quotedLit, backTicked p], q.Refuses ((Expr.array items).write ++ rest) := by
    simp only [List.forall_mem_cons]
    exact ⟨⟨_, rfl⟩, ⟨_, rfl⟩, ⟨_, rfl⟩, List.forall_mem_nil _⟩
  apply conditional_of_primary _ hr
  exact firstOf_of_refuses hbefore (array_append h.starts hitems rest) _

theorem reads_object {entries : List (String × Expr)} (each : ∀ pair ∈ entries, pair.2.WellFormed)
    (hn : (Expr.object entries).write.length ≤ n) : Reads (conditional p) (.object entries) := by
  intro rest hr
  have hentries := h.entries each (by simp [Expr.write] at hn; omega)
  have hbefore : ∀ q ∈ [number, quotedLit, backTicked p, array p],
      q.Refuses ((Expr.object entries).write ++ rest) := by
    simp only [List.forall_mem_cons]
    exact ⟨⟨_, rfl⟩, ⟨_, rfl⟩, ⟨_, rfl⟩, ⟨_, rfl⟩, List.forall_mem_nil _⟩
  apply conditional_of_primary _ hr
  exact firstOf_of_refuses hbefore (object_append h.starts hentries rest) _

theorem reads_ref {parents : Nat} {first : String} {steps : List RefStep} (word : IsKeyWord first)
    (opens : parents = 0 → IsFirstWord first) (each : ∀ step ∈ steps, step.WellFormed)
    (hn : (Expr.ref parents (.key first :: steps)).write.length ≤ n) :
    Reads (conditional p) (.ref parents (.key first :: steps)) := by
  intro rest hr
  have hsteps := h.steps each (by simp [Expr.write, RefStep.writeAll] at hn; omega)
  exact conditional_of_primary (primary_ref h.starts word opens each hsteps hr.endsOperand) hr

theorem conditional_call {name : String} {args : List Expr} (hname : IsCallName name)
    (hargs : ∀ e ∈ args, Reads p e) (hr : Closes rest) :
    conditional p (name.toList ++ inParens (listed (Expr.writeEach args)) ++ rest) =
      .accept (callOf name args) rest := by
  have hnamed := named_call h.starts hname hargs rest
  apply conditional_of_primary _ hr
  obtain ⟨first, words, rfl, hfirst, -⟩ := hname
  rw [toList_callName] at hnamed ⊢
  simp only [List.append_assoc] at hnamed ⊢
  exact primary_of_word hfirst.1 hnamed

theorem reads_unary {op : UnaryOp} (he : Reads p e) : Reads (conditional p) (.unary op e) := by
  intro rest hr
  have hsuffix := suffix_refuses (p := p) hr.endsOperand
  have hoperand := suffixed_of_primary (primary_inParens h.starts he rest) hsuffix
  have hsign : sign (op.write :: (inParens e.write ++ rest)) = .accept op (inParens e.write ++ rest) := by
    cases op <;> rfl
  have hsigns : Repeats sign (op.write :: (inParens e.write ++ rest)) [op] (inParens e.write ++ rest) :=
    .more hsign (Nat.lt_succ_self _) (.done ⟨_, rfl⟩)
  apply conditional_of_signed _ hr.ends
  refine (bind_of_accept hsigns.many_eq).trans ?_
  exact bind_of_accept hoperand

/-- Behind an operand in parentheses one index or member is read, and nothing more. -/
theorem reads_suffixed {text : List Char} {build : Expr → Expr} (he : Reads p e) (hne : text ≠ [])
    (hs : ∀ rest, Closes rest → suffix p (text ++ rest) = .accept build rest)
    (hw : (build e).write = inParens e.write ++ text) : Reads (conditional p) (build e) := by
  intro rest hr
  have hshort : rest.length < (text ++ rest).length := by
    have hpos := List.length_pos_iff.2 hne
    rw [List.length_append]
    omega
  have hsuffixes : Repeats (suffix p) (text ++ rest) [build] rest :=
    .more (hs rest hr) hshort (.done (suffix_refuses hr.endsOperand))
  have hprimary := primary_inParens h.starts he (text ++ rest)
  rw [hw, List.append_assoc]
  apply conditional_of_signed _ hr.ends
  apply signed_of_suffixed (sign_refuses_of_primary hprimary)
  refine (bind_of_accept hprimary).trans ?_
  exact bind_of_accept hsuffixes.many_eq

theorem reads_member {k : String} (he : Reads p e) (word : IsKeyWord k) :
    Reads (conditional p) (.member e k) := by
  apply h.reads_suffixed he (List.cons_ne_nil '.' k.toList) _ (by rw [Expr.write])
  intro rest hr
  have hbracket : (bracketed p).Refuses (('.' :: k.toList) ++ rest) := ⟨_, rfl⟩
  refine ((hbracket.bind _).orElse_eq _).trans ?_
  exact bind_of_accept (dotted_append (keyWord_append word hr.endsWord))

theorem reads_index {i : Expr} (he : Reads p e) (hi : Reads p i) : Reads (conditional p) (.index e i) := by
  apply h.reads_suffixed he (List.cons_ne_nil '[' (i.write ++ [']'])) _ (by rw [Expr.write])
  intro rest hr
  have htext : ('[' :: (i.write ++ [']'])) ++ rest = '[' :: (i.write ++ ']' :: rest) := by simp
  rw [htext]
  apply orElse_of_accept
  exact bind_of_accept (bracketed_append h.starts hi rest)

theorem reads_joined {l r : Expr} (op : ChainOp)
    (hw : (op.join l r).write = inParens l.write ++ ' ' :: (op.write ++ ' ' :: inParens r.write))
    (hl : Reads p l) (hright : Reads p r) : Reads (conditional p) (op.join l r) := by
  intro rest hr
  have htext : (op.join l r).write ++ rest =
      inParens l.write ++ ' ' :: (op.write ++ ' ' :: (inParens r.write ++ rest)) := by
    simp [hw]
  rw [htext]
  exact conditional_of_coalescings (coalescings_joined op h.starts hl hright hr.ends) hr.ends

theorem reads_conditional {c y z : Expr} (hc : Reads p c)
    (hy : ∀ rest, Ends rest → p (inParens y.write ++ rest) = .accept y rest)
    (hz : ∀ rest, Ends rest → p (inParens z.write ++ rest) = .accept z rest) :
    Reads (conditional p) (.conditional c y z) := by
  intro rest hr
  let other := ' ' :: ':' :: ' ' :: (inParens z.write ++ rest)
  have htext : (Expr.conditional c y z).write ++ rest =
      inParens c.write ++ ' ' :: '?' :: ' ' :: (inParens y.write ++ other) := by
    simp [Expr.write, other]
  have hcondition : coalescings p (inParens c.write ++ ' ' :: '?' :: ' ' :: (inParens y.write ++ other)) =
      .accept c (' ' :: '?' :: ' ' :: (inParens y.write ++ other)) :=
    coalescings_of_signed (signed_inParens h.starts hc ⟨_, rfl⟩)
      (levels_refuse_question blank_singleton (by simp))
  have hbranches : branches p (' ' :: '?' :: ' ' :: (inParens y.write ++ other)) = .accept (y, z) rest := by
    have hquestion : spaced (char '?') (' ' :: '?' :: ' ' :: (inParens y.write ++ other)) =
        .accept () (inParens y.write ++ other) := rfl
    have hcolon : spaced (char ':') other = .accept () (inParens z.write ++ rest) := rfl
    refine (bind_of_accept hquestion).trans ?_
    refine (bind_of_accept (hy other (ends_colon _))).trans ?_
    refine (bind_of_accept hcolon).trans ?_
    exact bind_of_accept (hz rest hr.ends)
  rw [htext]
  refine (bind_of_accept hcondition).trans ?_
  exact bind_of_accept (opt_of_accept hbranches)

/-- One level further in, texts may be longer by one. -/
theorem succ : Reader (conditional p) (n + 1) where
  starts := starts_conditional p
  reads e hw hn := by
    have hn : e.write.length ≤ n := by omega
    cases hw with
    | lit value =>
      intro rest hr
      exact conditional_of_primary (primary_lit value hr) hr
    | template each apart => exact h.reads_template each apart hn
    | array each => exact h.reads_array each hn
    | object each => exact h.reads_object each hn
    | ref word opens each => exact h.reads_ref word opens each hn
    | @fresh parents steps target =>
      intro rest hr
      have htarget : Reads p (.ref parents steps) := by
        apply h.reads _ target
        rw [Expr.write, List.length_append, length_inParens] at hn
        rw [Expr.write]
        omega
      have hargs : ∀ e ∈ [Expr.ref parents steps], Reads p e := by simpa using htarget
      have hname : IsCallName "fresh" :=
        ⟨"fresh", [], String.intercalate_singleton.symm,
          ⟨isIdentifier_of_toList rfl (by decide) (by decide), by decide⟩, List.forall_mem_nil _⟩
      have hcall := h.conditional_call hname hargs hr
      simpa [Expr.write, Expr.writeEach, listed, callOf] using hcall
    | @call name args hname each notFresh =>
      intro rest hr
      rw [Expr.write, List.length_append, length_inParens] at hn
      have hcall := h.conditional_call hname (h.items each (by omega)) hr
      rw [callOf_eq notFresh] at hcall
      exact hcall
    | @unary op e operand =>
      rw [Expr.write, List.length_cons, length_inParens] at hn
      exact h.reads_unary (h.reads e operand (by omega))
    | @binary op l r left right =>
      simp only [Expr.write, length_inParens, List.length_append, List.length_cons] at hn
      exact h.reads_joined (.binary op) (by rw [ChainOp.join, Expr.write]; rfl) (h.reads l left (by omega))
        (h.reads r right (by omega))
    | @logical op l r left right =>
      simp only [Expr.write, length_inParens, List.length_append, List.length_cons] at hn
      exact h.reads_joined (.logical op) (by rw [ChainOp.join, Expr.write]; rfl) (h.reads l left (by omega))
        (h.reads r right (by omega))
    | @conditional c y z condition yes no =>
      simp only [Expr.write, length_inParens, List.length_append, List.length_cons] at hn
      exact h.reads_conditional (h.reads c condition (by omega)) (h.grouped y yes (by omega))
        (h.grouped z no (by omega))
    | @member o k object key =>
      simp only [Expr.write, length_inParens, List.length_append, List.length_cons] at hn
      exact h.reads_member (h.reads o object (by omega)) key
    | @index o i object place =>
      simp only [Expr.write, length_inParens, List.length_append, List.length_cons] at hn
      exact h.reads_index (h.reads o object (by omega)) (h.reads i place (by omega))
  grouped e hw hn rest hr :=
    conditional_of_signed (signed_inParens h.starts (h.reads e hw (by omega)) (suffix_refuses hr.endsOperand)) hr

end Reader

theorem reader_expression (n : Nat) : Reader (expression n) n := by
  induction n with
  | zero => exact .fail
  | succ n ih => exact ih.succ

end Grammar

namespace Template

/-- A well-formed template is what its text parses as. -/
theorem parse_write {t : Template} (h : t.WellFormed) : Template.parse t.write = .ok t := by
  let cs := Part.writeAll t
  have hreader := Grammar.reader_expression (cs.length + 1)
  have hscan : Template.scan cs = .accept t [] := by
    have ht : Grammar.template _ none (Part.writeAll t ++ []) = .accept t [] :=
      Grammar.template_append hreader.starts (.inl rfl) rfl h.each h.apart
        (hreader.spans h.each (Nat.le_succ _))
    rwa [List.append_nil] at ht
  have hchars : t.write.toList = cs := String.toList_ofList
  rw [Template.parse, hchars, hscan]

/-- A sign between spans, a template inside an expression, and a quote inside quotes. -/
def signs : Template :=
  [.text "$ ", .span (.binary .add (.lit (.num (.int 2)))
    (.template [.text "\x7d", .span (.ref 1 [.key "a", .at (.lit (.str "\x27"))])]))]

theorem parse_write_signs :
    signs.write = "\x5c$ $\x7b(2) + (\x60\x7d$\x7b^.a[\x27\x5c\x27\x27]\x7d\x60)\x7d" ∧
      Template.parse signs.write = .ok signs := by
  have hword : IsKeyWord "a" := (Grammar.isIdentifier_of_toList rfl (by decide) (by decide)).1
  have hplace : RefStep.WellFormed (.at (.lit (.str "\x27"))) := .at (.lit trivial)
  have hinner : Expr.WellFormed (.ref 1 [.key "a", .at (.lit (.str "\x27"))]) :=
    .ref hword (fun h => nomatch h) (by simpa using hplace)
  have hlit : Expr.WellFormed (.lit (.num (.int 2))) := .lit ⟨by decide, by decide⟩
  have htext : Part.WellFormed (.text "$ ") := .text (by decide)
  have hbrace : Part.WellFormed (.text "\x7d") := .text (by decide)
  have htemplate : Expr.WellFormed
      (.template [.text "\x7d", .span (.ref 1 [.key "a", .at (.lit (.str "\x27"))])]) := by
    apply Expr.WellFormed.template
    · simpa using ⟨hbrace, Part.WellFormed.span hinner⟩
    · exact .cons_cons rfl (.singleton _)
  have hsigns : signs.WellFormed := by
    constructor
    · simpa [signs] using ⟨htext, Part.WellFormed.span (.binary hlit htemplate)⟩
    · exact .cons_cons rfl (.singleton _)
  exact ⟨by decide +kernel, parse_write hsigns⟩

end Template

end LiveDoc
