import LiveDoc.Proofs.TemplateRoundTrip

/-! # Parsing chains of operators

A chain of numbers, texts in quotes and references parses as it is grouped by the levels of its operators,
whatever blanks stand around them. In front of a question mark it is the condition of a conditional, whose
branches may be conditionals again.
-/

namespace LiveDoc

/-! ## Operands -/

/-- The digits of a number. With an idle zero in front, or out of range, they are no number. -/
structure NumberText where
  whole : List Char
  fraction : List Char
  value : Number
  digits : Numeral.Digits whole
  visible : whole ≠ []
  decimals : Numeral.Digits fraction
  counts : Grammar.numberOf? whole fraction = some value

/-- A character in quotes, behind a backslash or not. -/
inductive QuotedItem where
  | plain (c : Char)
  | escaped (c : Char)

namespace QuotedItem

def text : QuotedItem → List Char
  | plain c => [c]
  | escaped c => ['\x5c', c]

def char : QuotedItem → Char
  | plain c => c
  | escaped c => Grammar.unescape c

end QuotedItem

/-- A text in single or double quotes. -/
structure QuotedText where
  quote : Char
  items : List QuotedItem
  quotes : quote ∈ ['\x27', '\x22']
  plain : ∀ c, .plain c ∈ items → c ≠ quote ∧ c ≠ '\x5c'

theorem QuotedText.quote_cases (q : QuotedText) : q.quote = '\x27' ∨ q.quote = '\x22' := by
  simpa using q.quotes

/-- A reference by names alone. -/
structure PlainReference where
  parents : Nat
  first : String
  rest : List String
  word : IsKeyWord first
  opens : parents = 0 → IsFirstWord first
  words : ∀ w ∈ rest, IsKeyWord w

inductive Atom where
  | number (n : NumberText)
  | quoted (q : QuotedText)
  | reference (r : PlainReference)

namespace Atom

def expr : Atom → Expr
  | number n => .lit (.num n.value)
  | quoted q => .lit (.str (String.ofList (q.items.map QuotedItem.char)))
  | reference r => .ref r.parents (.key r.first :: r.rest.map .key)

def text : Atom → List Char
  | number n => n.whole ++ Grammar.pointed n.fraction
  | quoted q => q.quote :: (q.items.flatMap QuotedItem.text ++ [q.quote])
  | reference r => (Atom.reference r).expr.write

end Atom

namespace Grammar

open Scanner

variable {p : Scanner Expr} {e : Expr} {cs rest : List Char}

theorem primary_number (n : NumberText) (hr : EndsOperand rest) :
    primary p ((Atom.number n).text ++ rest) = .accept (Atom.number n).expr rest := by
  rw [Atom.text, List.append_assoc]
  exact firstOf_of_accept (number_digits n.digits n.visible n.decimals n.counts hr) _

theorem repeats_items {quote : Char} (hquote : quote ∈ ['\x27', '\x22']) (items : List QuotedItem)
    (plain : ∀ c, .plain c ∈ items → c ≠ quote ∧ c ≠ '\x5c') (rest : List Char) :
    Repeats (quotedItem quote) (items.flatMap QuotedItem.text ++ quote :: rest)
      (items.map QuotedItem.char) (quote :: rest) := by
  induction items with
  | nil =>
    simp only [List.mem_cons, List.not_mem_nil, or_false] at hquote
    rcases hquote with rfl | rfl <;> exact .done ⟨_, rfl⟩
  | cons item items ih =>
    have hrest := ih fun c hc => plain c (List.mem_cons_of_mem item hc)
    rw [List.flatMap_cons, List.append_assoc]
    cases item with
    | escaped c => exact .more rfl (Nat.lt_succ_of_lt (Nat.lt_succ_self _)) hrest
    | plain c =>
      obtain ⟨hne, hslash⟩ := plain c List.mem_cons_self
      have hescape : (char '\x5c').Refuses (c :: (items.flatMap QuotedItem.text ++ quote :: rest)) :=
        char_refuses (by simpa using hslash)
      have hread := (hescape.bind fun _ => do return unescape (← one fun _ => true)).orElse_eq
        (one fun c => c != quote && c != '\x5c')
      exact .more (hread.trans (one_cons (by simp [hne, hslash]))) (Nat.lt_succ_self _) hrest

theorem quoted_text (q : QuotedText) (rest : List Char) :
    quoted ((Atom.quoted q).text ++ rest) =
      .accept (String.ofList (q.items.map QuotedItem.char)) rest := by
  have hread := quotedBy_of_repeats (repeats_items q.quotes q.items q.plain rest)
  have htext : (Atom.quoted q).text ++ rest =
      q.quote :: (q.items.flatMap QuotedItem.text ++ q.quote :: rest) := by
    simp [Atom.text]
  rw [htext]
  rcases q.quote_cases with hquote | hquote
  · rw [hquote] at hread ⊢
    exact orElse_of_accept hread
  · rw [hquote] at hread ⊢
    have hsingle :
        (quotedBy '\x27').Refuses ('\x22' :: (q.items.flatMap QuotedItem.text ++ '\x22' :: rest)) :=
      ⟨_, rfl⟩
    exact (hsingle.orElse_eq _).trans hread

theorem primary_quoted (q : QuotedText) (rest : List Char) :
    primary p ((Atom.quoted q).text ++ rest) = .accept (Atom.quoted q).expr rest := by
  have hnumber : ∀ s ∈ [number], s.Refuses ((Atom.quoted q).text ++ rest) := by
    rw [List.forall_mem_singleton]
    apply number_refuses
    rintro c ⟨⟩
    rcases q.quote_cases with hquote | hquote <;> rw [hquote] <;> rfl
  refine firstOf_of_refuses hnumber ?_ _
  exact bind_of_accept (quoted_text q rest)

theorem primary_reference (hp : Starts p) (r : PlainReference) (hr : EndsOperand rest) :
    primary p ((Atom.reference r).text ++ rest) = .accept (Atom.reference r).expr rest := by
  apply primary_ref hp r.word r.opens _ _ hr
  · rw [List.forall_mem_map]
    exact fun w hw => .key (r.words w hw)
  · simp

theorem opens_of_isWordChar {c : Char} (h : isWordChar c = true) :
    isBlank c = false ∧ c ≠ '=' ∧ c ≠ '?' := by
  have hother (d : Char) (hd : isWordChar d = false) : c ≠ d := by
    rintro rfl
    rw [h] at hd
    cases hd
  have hblank : c ≠ ' ' ∧ c ≠ '\t' ∧ c ≠ '\r' ∧ c ≠ '\n' :=
    ⟨hother ' ' (by decide), hother '\t' (by decide), hother '\r' (by decide), hother '\n' (by decide)⟩
  exact ⟨by simpa [isBlank, and_assoc] using hblank, hother '=' (by decide), hother '?' (by decide)⟩

/-- Numbers, texts in quotes and references are operands. -/
theorem readsOperands_atom (hp : Starts p) : ReadsOperands p Atom.text Atom.expr where
  opens a := by
    cases a with
    | number n =>
      obtain ⟨c, cs, hwhole⟩ := List.exists_cons_of_ne_nil n.visible
      have hdigit := n.digits c (hwhole ▸ List.mem_cons_self)
      exact ⟨c, cs ++ pointed n.fraction, by rw [Atom.text, hwhole, List.cons_append],
        opens_of_isWordChar (isWordChar_of_isDigit hdigit)⟩
    | quoted q =>
      refine ⟨q.quote, _, rfl, ?_⟩
      rcases q.quote_cases with hquote | hquote <;> rw [hquote] <;> decide
    | reference r =>
      obtain ⟨parents, first, names, word, opens, words⟩ := r
      cases parents with
      | zero =>
        obtain ⟨c, cs, hfirst⟩ := List.exists_cons_of_ne_nil word.1
        have hword := word.2 c (hfirst ▸ List.mem_cons_self)
        exact ⟨c, cs ++ RefStep.writeAll (names.map .key),
          by simp [Atom.text, Atom.expr, Expr.write, RefStep.writeAll, writeParents, hfirst],
          opens_of_isWordChar hword⟩
      | succ parents => exact ⟨'^', _, rfl, by decide⟩
  reads a rest hr := by
    refine signed_of_primary ?_ (suffix_refuses hr)
    cases a with
    | number n => exact primary_number n hr
    | quoted q => exact primary_quoted q rest
    | reference r => exact primary_reference hp r hr

end Grammar

/-! ## Chains and conditionals -/

/-- A chain as it is written. -/
def OperatorChain.text {α : Type} (write : α → List Char) (c : OperatorChain Sign α) : List Char :=
  write c.first ++ c.links.flatMap fun link => link.1.text ++ write link.2

theorem Grouping.text_chain {α : Type} (write : α → List Char) (t : Grouping Sign α) :
    t.chain.text write = t.text write := by
  induction t with
  | operand a => simp [OperatorChain.text, chain, first, links, text]
  | join s l r ihl ihr =>
    simp only [OperatorChain.text, chain] at ihl ihr
    simp only [OperatorChain.text, chain, first, links, text, List.flatMap_append, List.flatMap_cons, ← ihl,
      ← ihr, List.append_assoc]

/-- A chain, a conditional with a chain as its condition, or any expression in parentheses. -/
inductive Written where
  | chain (c : OperatorChain Sign Atom)
  | grouped (e : Expr) (wellFormed : e.WellFormed)
  | choice (condition : OperatorChain Sign Atom) (question : Gap × Gap) (yes : Written) (colon : Gap × Gap)
    (no : Written)

namespace Written

def text : Written → List Char
  | chain c => c.text Atom.text
  | grouped e _ => inParens e.write
  | choice c question yes colon no =>
    c.text Atom.text ++ (question.1.text ++ '?' :: (question.2.text ++ (yes.text ++
      (colon.1.text ++ ':' :: (colon.2.text ++ no.text)))))

/-- The span that holds what is written, with blanks around it. -/
def span (w : Written) (before after : Gap) : List Char :=
  '$' :: '\x7b' :: (before.text ++ (w.text ++ (after.text ++ ['\x7d'])))

/-- How deep expressions are nested, at most. -/
def depth : Written → Nat
  | chain _ => 1
  | grouped e _ => e.write.length + 2
  | choice _ _ yes _ no => max yes.depth no.depth + 1

/-- What is written means an expression in which the operators are grouped by their levels. -/
inductive Means : Written → Expr → Prop where
  | chain {c : OperatorChain Sign Atom} {t : Grouping Sign Atom} (ordered : t.Ordered Sign.looseness)
    (groups : t.chain = c) : Means (.chain c) (t.expr Atom.expr)
  | grouped {e : Expr} (wellFormed : e.WellFormed) : Means (.grouped e wellFormed) e
  | choice {c : OperatorChain Sign Atom} {t : Grouping Sign Atom} {question colon : Gap × Gap}
      {yes no : Written}
    {y n : Expr} (ordered : t.Ordered Sign.looseness) (groups : t.chain = c) (left : Means yes y)
    (right : Means no n) : Means (.choice c question yes colon no) (.conditional (t.expr Atom.expr) y n)

variable {w : Written} {e e' : Expr} {rest : List Char}

theorem Means.unique (h : w.Means e) (h' : w.Means e') : e = e' := by
  induction h generalizing e' with
  | chain ordered groups =>
    cases h' with
    | chain ordered' groups' => rw [ordered.unique ordered' (groups.trans groups'.symm)]
  | grouped wellFormed =>
    cases h'
    rfl
  | choice ordered groups _ _ ihy ihn =>
    cases h' with
    | choice ordered' groups' left' right' =>
      rw [ordered.unique ordered' (groups.trans groups'.symm), ihy left', ihn right']

theorem exists_means (w : Written) : ∃ e, w.Means e := by
  induction w with
  | chain c => exact ⟨_, .chain c.ordered_group c.chain_group⟩
  | grouped e wellFormed => exact ⟨e, .grouped wellFormed⟩
  | choice c question yes colon no ihy ihn =>
    obtain ⟨y, hy⟩ := ihy
    obtain ⟨n, hn⟩ := ihn
    exact ⟨_, .choice c.ordered_group c.chain_group hy hn⟩

theorem opens_text (w : Written) : ∃ c cs, w.text = c :: cs ∧ Grammar.isBlank c = false ∧ c ≠ '?' := by
  have hchain (c : OperatorChain Sign Atom) :
      ∃ d cs, c.text Atom.text = d :: cs ∧ Grammar.isBlank d = false ∧ d ≠ '?' := by
    obtain ⟨d, cs, hfirst, hblank, -, hd⟩ :=
      (Grammar.readsOperands_atom (Grammar.reader_expression 0).starts).opens c.first
    exact ⟨d, _, by rw [OperatorChain.text, hfirst, List.cons_append], hblank, hd⟩
  cases w with
  | chain c => exact hchain c
  | grouped e wellFormed => exact ⟨'(', e.write ++ [')'], rfl, by decide⟩
  | choice c question yes colon no =>
    obtain ⟨d, cs, htext, hd⟩ := hchain c
    exact ⟨d, _, by rw [text, htext, List.cons_append], hd⟩

theorem solid_text (w : Written) (rest : List Char) : Grammar.Solid (w.text ++ rest) := by
  obtain ⟨c, cs, htext, hc, -⟩ := w.opens_text
  rw [htext]
  exact Grammar.solid_cons hc _

theorem depth_le_length (w : Written) : w.depth ≤ w.text.length := by
  induction w with
  | chain c =>
    obtain ⟨d, cs, htext, -⟩ := opens_text (.chain c)
    rw [htext]
    exact Nat.succ_le_succ (Nat.zero_le _)
  | grouped e wellFormed => exact (length_inParens e.write).ge
  | choice c question yes colon no ihy ihn =>
    simp only [depth, text, List.length_append, List.length_cons]
    omega

end Written

namespace Grammar

open Scanner

variable {w : Written} {e : Expr} {rest : List Char}

/-- A sign with blanks around it is read in front of an expression. -/
theorem spaced_char {c : Char} (hc : isBlank c = false) (gaps : Gap × Gap) {cs : List Char} (h : Solid cs) :
    spaced (char c) (gaps.1.text ++ c :: (gaps.2.text ++ cs)) = .accept () cs := by
  rw [spaced_gap gaps.1.blank (solid_cons hc _)]
  exact spaced_eq (solid_cons hc _).space (char_cons c _) (space_gap gaps.2.blank h)

/-- What is written is read in front of the end of an expression. By induction on the conditionals, each of
which nests its branches one level further in. -/
theorem expression_means (h : w.Means e) {depth : Nat} (hd : w.depth ≤ depth) (hr : Ends rest) :
    expression depth (w.text ++ rest) = .accept e rest := by
  induction h generalizing depth rest with
  | @chain c t ordered groups =>
    obtain ⟨n, rfl⟩ : ∃ n, depth = n + 1 := Nat.exists_eq_succ_of_ne_zero (by
      rw [Written.depth] at hd
      omega)
    have hoperands := readsOperands_atom (reader_expression n).starts
    rw [Written.text, ← groups, Grouping.text_chain]
    exact conditional_of_coalescings
      (hoperands.coalescings_grouping ordered hr.endsOperand (levels_refuse hr)) hr
  | @grouped e wellFormed => exact (reader_expression depth).grouped e wellFormed hd rest hr
  | @choice c t question colon yes no y n ordered groups _ _ ihy ihn =>
    obtain ⟨m, rfl⟩ : ∃ m, depth = m + 1 := Nat.exists_eq_succ_of_ne_zero (by
      rw [Written.depth] at hd
      omega)
    rw [Written.depth] at hd
    have hoperands := readsOperands_atom (reader_expression m).starts
    let other := colon.1.text ++ ':' :: (colon.2.text ++ (no.text ++ rest))
    let behind := question.2.text ++ (yes.text ++ other)
    have htext : (Written.choice c question yes colon no).text ++ rest =
        t.text Atom.text ++ (question.1.text ++ '?' :: behind) := by
      rw [← Grouping.text_chain, groups]
      simp [Written.text, behind, other]
    have hbehind : behind.head? ≠ some '?' := by
      obtain ⟨d, cs, hyes, -, hd⟩ := yes.opens_text
      apply head?_gap_ne question.2.blank (by decide)
      simpa [hyes] using hd
    have hcondition : coalescings (expression m) (t.text Atom.text ++ (question.1.text ++ '?' :: behind)) =
        .accept (t.expr Atom.expr) (question.1.text ++ '?' :: behind) :=
      hoperands.coalescings_grouping ordered (endsOperand_gap question.1.blank (by decide) behind)
        (levels_refuse_question question.1.blank hbehind)
    have hbranches : branches (expression m) (question.1.text ++ '?' :: behind) = .accept (y, n) rest := by
      refine (bind_of_accept (spaced_char (by decide) question (yes.solid_text other))).trans ?_
      refine (bind_of_accept (ihy (by omega) ⟨colon.1.text, ':', _, rfl, colon.1.blank, by decide⟩)).trans ?_
      refine (bind_of_accept (spaced_char (by decide) colon (no.solid_text rest))).trans ?_
      exact bind_of_accept (ihn (by omega) hr)
    rw [htext]
    refine (bind_of_accept hcondition).trans ?_
    exact bind_of_accept (opt_of_accept hbranches)

theorem span_means (h : w.Means e) (before after : Gap) {depth : Nat} (hd : w.depth ≤ depth)
    (rest : List Char) : span (expression depth) (w.span before after ++ rest) = .accept (.span e) rest := by
  have htext : w.span before after ++ rest =
      ['$', '\x7b'] ++ (before.text ++ (w.text ++ (after.text ++ '\x7d' :: rest))) := by
    simp [Written.span]
  have hsolid := w.solid_text (after.text ++ '\x7d' :: rest)
  have hends : Ends (after.text ++ '\x7d' :: rest) :=
    ⟨after.text, '\x7d', rest, rfl, after.blank, by decide⟩
  have hclose : space (after.text ++ '\x7d' :: rest) = .accept () ('\x7d' :: rest) :=
    space_gap after.blank (solid_cons (by decide) rest)
  rw [htext]
  refine (bind_of_accept (token_append _ _)).trans ?_
  apply commit_of_accept
  refine (bind_of_accept ((spaced_gap before.blank hsolid _).trans
    (spaced_eq hsolid.space (expression_means h hd hends) hclose))).trans ?_
  exact bind_of_accept (char_cons _ _)

end Grammar

theorem Template.parse_span {w : Written} {e : Expr} (h : w.Means e) (before after : Gap) :
    Template.parse (String.ofList (w.span before after)) = .ok [.span e] := by
  let cs := w.span before after
  have hdepth : w.depth ≤ cs.length + 1 := by
    have hlength : w.text.length ≤ cs.length := by
      simp only [cs, Written.span, List.length_append, List.length_cons]
      omega
    exact (w.depth_le_length.trans hlength).trans (Nat.le_succ _)
  have hspan := Grammar.span_means h before after hdepth []
  rw [List.append_nil] at hspan
  have hescape : ∀ q ∈ [Grammar.escape], q.Refuses cs := by
    rw [List.forall_mem_singleton]
    exact ⟨_, rfl⟩
  have hpart : Grammar.part (Grammar.expression (cs.length + 1)) none cs = .accept (.span e) [] :=
    Scanner.firstOf_of_refuses hescape hspan _
  have hgathers : Grammar.Gathers (Grammar.expression (cs.length + 1)) none cs [.span e] [] :=
    .more (by simp [cs, Written.span]) hpart (by simp [cs, Written.span]) (.stop rfl)
  have hscan : Template.scan cs = .accept [.span e] [] := by
    rw [Template.scan, hgathers.template_eq]
    rfl
  rw [Template.parse, String.toList_ofList, hscan]

/-- A chain of operands has exactly one grouping by the levels of its operators. A span that holds a chain,
or conditionals over chains that nest to the right, means exactly one expression with the chains so
grouped, and this is what it is read as, in whichever template. -/
theorem parse_written (w : Written) (before after : Gap) :
    (∀ c : OperatorChain Sign Atom, ∃! t : Grouping Sign Atom, t.Ordered Sign.looseness ∧ t.chain = c) ∧
    ∃ e, (∀ e', w.Means e' ↔ e' = e) ∧
      Template.parse (String.ofList (w.span before after)) = .ok [.span e] ∧
      ∀ further rest, Grammar.span (Grammar.expression (w.depth + further))
        (w.span before after ++ rest) = .accept (.span e) rest := by
  obtain ⟨e, he⟩ := w.exists_means
  refine ⟨OperatorChain.exists_unique_grouping Sign.looseness, e, fun e' => ⟨fun h => h.unique he, ?_⟩,
    Template.parse_span he before after, fun further rest => ?_⟩
  · rintro rfl
    exact he
  · exact Grammar.span_means he before after (Nat.le_add_right _ _) rest

/-! ## A chain of three levels -/

namespace Written

/-- A reference by one name, from some levels up. -/
def named (parents : Nat) (word : String) (h : IsFirstWord word) : Atom :=
  .reference ⟨parents, word, [], h.1.1, fun _ => h, List.forall_mem_nil _⟩

def digits (n : Nat) (h : n < 2 ^ 64) : Atom :=
  .number ⟨Nat.toDigits 10 n, [], .int n, Numeral.digits_toDigits n, Nat.toDigits_ne_nil,
    List.forall_mem_nil _, Grammar.numberOf?_toDigits h⟩

def close : Gap :=
  ⟨[], List.forall_mem_nil _⟩

def apart : Gap :=
  ⟨[' '], Grammar.blank_singleton⟩

theorem isFirstWord_b : IsFirstWord "b" :=
  ⟨Grammar.isIdentifier_of_toList rfl (by decide) (by decide), by decide⟩

/-- A sum with a product in it stands in for a name. -/
def sumOr : OperatorChain Sign Atom :=
  ⟨named 0 "b" isFirstWord_b,
    [(⟨apart, .logical .coalesce, close⟩, digits 1 (by decide)),
      (⟨close, .binary .add, close⟩, digits 2 (by decide)),
      (⟨apart, .binary .mul, close⟩, .quoted ⟨'\x22', [.plain 'x'], by decide, by simp⟩)]⟩

/-- The branches of the conditional are a name further up and a sum. -/
def mixed : Written :=
  .choice sumOr (close, apart) (.chain ⟨named 1 "b" isFirstWord_b, []⟩) (apart, close)
    (.chain ⟨digits 3 (by decide), [(⟨close, .binary .sub, close⟩, digits 4 (by decide))]⟩)

def mixedExpr : Expr :=
  .conditional
    (.logical .coalesce (.ref 0 [.key "b"])
      (.binary .add (.lit (.num (.int 1))) (.binary .mul (.lit (.num (.int 2))) (.lit (.str "x")))))
    (.ref 1 [.key "b"])
    (.binary .sub (.lit (.num (.int 3))) (.lit (.num (.int 4))))

theorem mixed_parsed : String.ofList (mixed.span close close) =
      "$\x7bb ??1+2 *\x22x\x22? ^.b :3-4\x7d" ∧
    Template.parse (String.ofList (mixed.span close close)) = .ok [.span mixedExpr] := by
  obtain ⟨-, e, hmeans, hparse, -⟩ := parse_written mixed close close
  have he : mixed.Means mixedExpr :=
    .choice sumOr.ordered_group sumOr.chain_group
      (.chain (OperatorChain.ordered_group _) (OperatorChain.chain_group _))
      (.chain (OperatorChain.ordered_group _) (OperatorChain.chain_group _))
  rw [(hmeans _).1 he]
  exact ⟨by decide +kernel, hparse⟩

end Written

end LiveDoc
