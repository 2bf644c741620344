import LiveDoc.Proofs.TemplateReading
import Mathlib.Tactic.IntervalCases

/-! # Reading operators

Between operands in parentheses an operator is read at its own level: the tighter levels leave it alone,
and the looser ones find nothing behind it.
-/

namespace LiveDoc

namespace Grammar

open Scanner

variable {p : Scanner Expr} {e l r : Expr} {s : String} {c : Char} {cs rest left : List Char}

/-! ## Primaries -/

/-- A text in quotes, as an expression. -/
def quotedLit : Scanner Expr := do
  return .lit (.str (← quoted))

theorem number_refuses (h : ∀ c ∈ cs.head?, c.isDigit = false) : number.Refuses cs := by
  obtain ⟨left, hl⟩ : (do
      let whole ← run₁ Char.isDigit
      let fraction ← (do char '.'; run₁ Char.isDigit).opt
      return (whole, fraction.getD []) : Scanner (List Char × List Char)).Refuses cs :=
    (run₁_refuses h).bind _
  exact ⟨left, by simp only [number, hl]⟩

theorem isWordStart_of_isDigit (h : c.isDigit = true) : isWordStart c = false := by
  obtain ⟨hlow, hhigh⟩ := toNat_of_isDigit h
  rw [← Char.ofNat_toNat c]
  generalize c.toNat = n at hlow hhigh
  interval_cases n <;> decide

/-- Where a word starts nothing else does. -/
theorem refuses_of_isWordStart (h : isWordStart c = true) (cs : List Char) :
    ∀ q ∈ [number, quotedLit, backTicked p, array p, object p, parenthesized p, climbing p],
      q.Refuses (c :: cs) := by
  have hother (d : Char) (hd : isWordStart d = false) : (char d).Refuses (c :: cs) := by
    apply char_refuses
    rintro ⟨⟩
    rw [h] at hd
    cases hd
  have hnumber : number.Refuses (c :: cs) := by
    apply number_refuses
    rintro d ⟨⟩
    cases hd : c.isDigit with
    | false => rfl
    | true =>
      rw [isWordStart_of_isDigit hd] at h
      cases h
  have hquoted : quoted.Refuses (c :: cs) :=
    ((hother _ (by decide)).bind _).orElse ((hother _ (by decide)).bind _)
  simp only [List.forall_mem_cons]
  refine ⟨hnumber, hquoted.bind _, (hother _ (by decide)).bind _, (hother _ (by decide)).bind _,
    (hother _ (by decide)).bind _, (hother _ (by decide)).bind _, ?_, List.forall_mem_nil _⟩
  exact ((hother '^' (by decide)).bind _).bind _ |>.bind _

theorem primary_of_named (h : ∀ c ∈ cs.head?, isWordStart c = true) (hne : cs ≠ [])
    (hn : named p cs = .accept e rest) : primary p cs = .accept e rest := by
  obtain ⟨c, cs, rfl⟩ := List.exists_cons_of_ne_nil hne
  exact firstOf_of_refuses (refuses_of_isWordStart (h c rfl) cs) hn []

/-! ## Operators -/

theorem suffixed_of_primary (h : primary p cs = .accept e rest) (hr : (suffix p).Refuses rest) :
    suffixed p cs = .accept e rest := by
  refine (bind_of_accept h).trans ?_
  exact bind_of_accept (Repeats.done hr).many_eq

theorem signed_of_suffixed (hs : sign.Refuses cs) (h : suffixed p cs = .accept e rest) :
    signed p cs = .accept e rest := by
  refine (bind_of_accept (Repeats.done hs).many_eq).trans ?_
  exact bind_of_accept h

/-- What is no operand of a sign does not start with one. -/
theorem sign_refuses_of_primary (h : primary p cs = .accept e rest) : sign.Refuses cs := by
  by_cases hnot : cs.head? = some '!'
  · obtain ⟨cs, rfl⟩ := List.head?_eq_some_iff.1 hnot
    cases h
  · by_cases hneg : cs.head? = some '-'
    · obtain ⟨cs, rfl⟩ := List.head?_eq_some_iff.1 hneg
      cases h
    · exact (((char_refuses hnot).bind _).orElse ((char_refuses hneg).bind _)).bind _

theorem signed_of_primary (h : primary p cs = .accept e rest) (hr : (suffix p).Refuses rest) :
    signed p cs = .accept e rest :=
  signed_of_suffixed (sign_refuses_of_primary h) (suffixed_of_primary h hr)

theorem primary_inParens (hp : Starts p) (h : Reads p e) (rest : List Char) :
    primary p (inParens e.write ++ rest) = .accept e rest := by
  have hbefore : ∀ q ∈ [number, quotedLit, backTicked p, array p, object p],
      q.Refuses (inParens e.write ++ rest) := by
    simp only [List.forall_mem_cons]
    exact ⟨⟨_, rfl⟩, ⟨_, rfl⟩, ⟨_, rfl⟩, ⟨_, rfl⟩, ⟨_, rfl⟩, List.forall_mem_nil _⟩
  exact firstOf_of_refuses hbefore (parenthesized_append hp h rest) _

theorem signed_inParens (hp : Starts p) (h : Reads p e) (hr : (suffix p).Refuses rest) :
    signed p (inParens e.write ++ rest) = .accept e rest :=
  signed_of_primary (primary_inParens hp h rest) hr

def binarySign (ops : List (String × BinaryOp)) : Scanner (Expr → Expr → Expr) :=
  spaced <| firstOf <| ops.map fun (spelling, op) => do
    token spelling.toList
    return .binary op

def logicalSign (spelling : String) (op : LogicalOp) : Scanner (Expr → Expr → Expr) :=
  spaced do
    token spelling.toList
    return .logical op

/-- The operators between two operands, level by level, the tightest first. -/
def levels : List (Scanner (Expr → Expr → Expr)) :=
  [binarySign [("*", .mul), ("/", .div), ("%", .rem)],
    binarySign [("+", .add), ("-", .sub)],
    binarySign [("<=", .le), (">=", .ge), ("<", .lt), (">", .gt)],
    binarySign [("==", .eq), ("!=", .ne)],
    logicalSign "&&" .and,
    logicalSign "||" .or,
    logicalSign "??" .coalesce]

theorem coalescings_eq (p : Scanner Expr) : coalescings p = levels.foldl chain (signed p) :=
  rfl

theorem foldl_chain_of_refuses {q : Scanner Expr} {ops : List (Scanner (Expr → Expr → Expr))}
    (h : q cs = .accept e rest) (ho : ∀ o ∈ ops, o.Refuses rest) :
    ops.foldl chain q cs = .accept e rest := by
  induction ops generalizing q with
  | nil => exact h
  | cons o ops ih =>
    obtain ⟨ho, hops⟩ := List.forall_mem_cons.1 ho
    exact ih (chain_of_refuses h ho) hops

/-- Blanks in front of an operator make no difference. -/
theorem levels_gap {gap : List Char} (hg : ∀ c ∈ gap, isBlank c = true) (h : Solid cs) :
    ∀ o ∈ levels, o (gap ++ cs) = o cs := by
  simp only [levels, List.forall_mem_cons]
  exact ⟨spaced_gap hg h _, spaced_gap hg h _, spaced_gap hg h _, spaced_gap hg h _, spaced_gap hg h _,
    spaced_gap hg h _, spaced_gap hg h _, List.forall_mem_nil _⟩

/-- The characters that end an expression: those that close what it stands in, and the sign between the
branches of a conditional. -/
def enders : List Char :=
  [')', ']', '\x7d', ',', ':']

/-- What follows an operand: the end of an expression, an operator or the branches of a conditional. -/
def followers : List Char :=
  enders ++ ['+', '-', '*', '/', '%', '=', '!', '<', '>', '&', '|', '?']

theorem of_mem_followers (h : c ∈ followers) :
    (isWordChar c = false ∧ c ≠ '.' ∧ c ≠ '[') ∧ c ≠ '(' ∧ isBlank c = false := by
  have hall : followers.all (fun d => !isWordChar d && d != '.' && d != '[' && d != '(' && !isBlank d) =
      true := by decide
  simpa [and_assoc] using List.all_eq_true.1 hall c h

theorem mem_followers_of_mem_enders (h : c ∈ enders) : c ∈ followers :=
  List.mem_append_left _ h

/-- The text goes on, perhaps behind blanks, with the end of an expression. -/
def Ends (cs : List Char) : Prop :=
  ∃ gap c left, cs = gap ++ c :: left ∧ (∀ d ∈ gap, isBlank d = true) ∧ c ∈ enders

theorem Closes.ends (h : Closes cs) : Ends cs := by
  obtain ⟨c, left, rfl, hc⟩ := h
  exact ⟨[], c, left, rfl, List.forall_mem_nil _, List.mem_append_left [':'] hc⟩

theorem ends_colon (left : List Char) : Ends (' ' :: ':' :: left) :=
  ⟨[' '], ':', left, rfl, blank_singleton, by decide⟩

theorem endsOperand_gap {gap : List Char} (hg : ∀ d ∈ gap, isBlank d = true) (hc : c ∈ followers)
    (left : List Char) : EndsOperand (gap ++ c :: left) := by
  have hblank : ∀ d, isBlank d = true → isWordChar d = false ∧ d ≠ '.' ∧ d ≠ '[' := by
    intro d hd
    simp only [isBlank, Bool.or_eq_true, beq_iff_eq] at hd
    rcases hd with ((rfl | rfl) | rfl) | rfl <;> decide
  obtain ⟨hfirst, hcall, hsolid⟩ := of_mem_followers hc
  have hhead : ∀ d ∈ (gap ++ c :: left).head?, isWordChar d = false ∧ d ≠ '.' ∧ d ≠ '[' := by
    intro d hd
    cases gap with
    | nil =>
      cases hd
      exact hfirst
    | cons b gap =>
      cases hd
      exact hblank d (hg d List.mem_cons_self)
  refine ⟨fun d hd => (hhead d hd).1, fun h => (hhead '.' h).2.1 rfl, fun h => (hhead '[' h).2.2 rfl, ?_⟩
  rw [Refuses, close_gap hg (solid_cons hsolid left)]
  exact Refuses.bind_of_accept (solid_cons hsolid left).space (char_refuses (by simpa using hcall))

theorem Ends.endsOperand (h : Ends cs) : EndsOperand cs := by
  obtain ⟨gap, c, left, rfl, hg, hc⟩ := h
  exact endsOperand_gap hg (mem_followers_of_mem_enders hc) left

/-- No operator of any level stands in front of the end of an expression. -/
theorem levels_refuse (h : Ends rest) : ∀ o ∈ levels, o.Refuses rest := by
  obtain ⟨gap, c, left, rfl, hg, hc⟩ := h
  have hsolid : Solid (c :: left) := solid_cons (of_mem_followers (mem_followers_of_mem_enders hc)).2.2 left
  have hbare : ∀ o ∈ levels, o.Refuses (c :: left) := by
    simp only [levels, List.forall_mem_cons]
    simp only [enders, List.mem_cons, List.not_mem_nil, or_false] at hc
    rcases hc with rfl | rfl | rfl | rfl | rfl
    all_goals exact ⟨⟨_, rfl⟩, ⟨_, rfl⟩, ⟨_, rfl⟩, ⟨_, rfl⟩, ⟨_, rfl⟩, ⟨_, rfl⟩, ⟨_, rfl⟩,
      List.forall_mem_nil _⟩
  intro o ho
  rw [Refuses, levels_gap hg hsolid o ho]
  exact hbare o ho

/-- Nor does one stand in front of the branches of a conditional. -/
theorem levels_refuse_question {gap : List Char} (hg : ∀ d ∈ gap, isBlank d = true)
    (h : cs.head? ≠ some '?') : ∀ o ∈ levels, o.Refuses (gap ++ '?' :: cs) := by
  have hlast : (logicalSign "??" .coalesce).Refuses ('?' :: cs) :=
    .bind_of_accept (solid_cons rfl cs).space (((token_pair_refuses h '?').bind _).bind _)
  have hbare : ∀ o ∈ levels, o.Refuses ('?' :: cs) := by
    simp only [levels, List.forall_mem_cons]
    exact ⟨⟨_, rfl⟩, ⟨_, rfl⟩, ⟨_, rfl⟩, ⟨_, rfl⟩, ⟨_, rfl⟩, ⟨_, rfl⟩, hlast, List.forall_mem_nil _⟩
  intro o ho
  rw [Refuses, levels_gap hg (solid_cons rfl cs) o ho]
  exact hbare o ho

theorem suffix_refuses (h : EndsOperand rest) : (suffix p).Refuses rest := by
  have hindex : (char '[').Refuses rest := char_refuses h.index
  have hmember : (char '.').Refuses rest := char_refuses h.member
  exact ((hindex.bind _).bind _).orElse ((hmember.bind _).bind _)

theorem branches_refuses (h : Ends rest) : (branches p).Refuses rest := by
  obtain ⟨gap, c, left, rfl, hg, hc⟩ := h
  have hsolid : Solid (c :: left) := solid_cons (of_mem_followers (mem_followers_of_mem_enders hc)).2.2 left
  have hbare : (spaced (char '?')).Refuses (c :: left) := by
    simp only [enders, List.mem_cons, List.not_mem_nil, or_false] at hc
    rcases hc with rfl | rfl | rfl | rfl | rfl <;> exact ⟨_, rfl⟩
  apply Refuses.bind
  rwa [Refuses, spaced_gap hg hsolid]

end Grammar

/-! ## Binary operators -/

/-- The operators between two operands. -/
inductive ChainOp where
  | binary (op : BinaryOp)
  | logical (op : LogicalOp)
  deriving DecidableEq, Repr

namespace ChainOp

def write : ChainOp → List Char
  | binary op => op.write
  | logical op => op.write

def join : ChainOp → Expr → Expr → Expr
  | binary op => .binary op
  | logical op => .logical op

/-- How loose an operator is: products, sums, order, equality, `&&`, `||` and `??`. -/
def looseness : ChainOp → Nat
  | binary .mul | binary .div | binary .rem => 0
  | binary .add | binary .sub => 1
  | binary .lt | binary .le | binary .gt | binary .ge => 2
  | binary .eq | binary .ne => 3
  | logical .and => 4
  | logical .or => 5
  | logical .coalesce => 6

end ChainOp

namespace Grammar

open Scanner

variable {p : Scanner Expr} {e l r : Expr} {cs rest left : List Char}

/-- No level tighter than its own reads an operator. -/
theorem tighter_refuse (op : ChainOp) (next : List Char) :
    ∀ o ∈ levels.take op.looseness, o.Refuses (op.write ++ next) := by
  rcases op with op | op <;> cases op
  all_goals
    simp only [levels, ChainOp.looseness, List.take_succ_cons, List.take_zero, List.forall_mem_cons]
    repeat refine ⟨⟨_, rfl⟩, ?_⟩
    exact List.forall_mem_nil _

/-- An operator is read at its level. Only the signs of an order could be part of longer ones. -/
theorem level_reads (op : ChainOp) {next : List Char} (h : space next = .accept () cs)
    (hne : next.head? ≠ some '=') :
    ∃ o, levels[op.looseness]? = some o ∧ o (op.write ++ next) = .accept op.join cs := by
  have hread (q : Scanner (Expr → Expr → Expr)) (hs : Solid (op.write ++ next))
      (hq : q (op.write ++ next) = .accept op.join next) :
      spaced q (op.write ++ next) = .accept op.join cs :=
    spaced_eq hs.space hq h
  rcases op with op | op
  · cases op with
    | lt =>
      have hlonger := (token_pair_refuses hne '<').bind fun _ => (pure (Expr.binary .le) : Scanner _)
      exact ⟨_, rfl, hread _ (solid_cons rfl _) ((hlonger.orElse_eq _).trans rfl)⟩
    | gt =>
      have hlonger := (token_pair_refuses hne '>').bind fun _ => (pure (Expr.binary .ge) : Scanner _)
      exact ⟨_, rfl, hread _ (solid_cons rfl _) ((hlonger.orElse_eq _).trans rfl)⟩
    | _ => exact ⟨_, rfl, hread _ (solid_cons rfl _) rfl⟩
  · cases op <;> exact ⟨_, rfl, hread _ (solid_cons rfl _) rfl⟩

/-- Between two operands, with blanks around it or none, an operator is read at its level, and no tighter
level reads it. -/
theorem levels_at (op : ChainOp) {gap gap' : List Char} (hg : ∀ c ∈ gap, isBlank c = true)
    (hg' : ∀ c ∈ gap', isBlank c = true) (hs : Solid cs) (hne : cs.head? ≠ some '=') :
    ∃ o, levels[op.looseness]? = some o ∧
      (∀ o' ∈ levels.take op.looseness, o'.Refuses (gap ++ (op.write ++ (gap' ++ cs)))) ∧
      o (gap ++ (op.write ++ (gap' ++ cs))) = .accept op.join cs := by
  have hsolid : Solid (op.write ++ (gap' ++ cs)) := by
    rcases op with op | op <;> cases op <;> exact solid_cons rfl _
  have hnext : (gap' ++ cs).head? ≠ some '=' := head?_gap_ne hg' (by decide) hne
  obtain ⟨o, hlevel, ho⟩ := level_reads op (space_gap hg' hs) hnext
  refine ⟨o, hlevel, fun o' ho' => ?_, ?_⟩
  · rw [Refuses, levels_gap hg hsolid o' (List.take_subset _ _ ho')]
    exact tighter_refuse op _ o' ho'
  · rw [levels_gap hg hsolid o (List.mem_of_getElem? hlevel), ho]

theorem coalescings_of_signed (h : signed p cs = .accept e rest) (hr : ∀ o ∈ levels, o.Refuses rest) :
    coalescings p cs = .accept e rest :=
  foldl_chain_of_refuses h hr

theorem conditional_of_coalescings (h : coalescings p cs = .accept e rest) (hr : Ends rest) :
    conditional p cs = .accept e rest := by
  refine (bind_of_accept h).trans ?_
  exact bind_of_accept (branches_refuses hr).opt

theorem conditional_of_signed (h : signed p cs = .accept e rest) (hr : Ends rest) :
    conditional p cs = .accept e rest :=
  conditional_of_coalescings (coalescings_of_signed h (levels_refuse hr)) hr

/-- Where no expression nested one level less starts, none starts. -/
theorem starts_conditional (p : Scanner Expr) : Starts (conditional p) := by
  rintro c cs (hc | hc)
  · simp only [isBlank, Bool.or_eq_true, beq_iff_eq] at hc
    rcases hc with ((rfl | rfl) | rfl) | rfl <;> exact ⟨_, rfl⟩
  · simp only [List.mem_cons, List.not_mem_nil, or_false] at hc
    rcases hc with rfl | rfl | rfl | rfl <;> exact ⟨_, rfl⟩

end Grammar

end LiveDoc
