import LiveDoc.Proofs.Grouping
import LiveDoc.Proofs.OperatorReading

/-! # Reading chains of operators

Operands with operators between them are read as they are grouped by the levels of the operators, with any
blanks around these.
-/

namespace LiveDoc

/-- Blanks, or nothing. -/
structure Gap where
  text : List Char
  blank : ∀ c ∈ text, Grammar.isBlank c = true

theorem ChainOp.looseness_lt (op : ChainOp) : op.looseness < Grammar.levels.length := by
  rcases op with op | op <;> cases op <;> decide

/-- An operator with the blanks around it. -/
structure Sign where
  before : Gap
  op : ChainOp
  after : Gap

namespace Sign

def text (s : Sign) : List Char :=
  s.before.text ++ (s.op.write ++ s.after.text)

def looseness (s : Sign) : Nat :=
  s.op.looseness

end Sign

namespace Grouping

variable {α : Type} (write : α → List Char) (read : α → Expr)

/-- A grouping as it is written, in which nothing tells the groups. -/
def text : Grouping Sign α → List Char
  | operand a => write a
  | join s left right => left.text ++ (s.text ++ right.text)

def expr : Grouping Sign α → Expr
  | operand a => read a
  | join s left right => s.op.join left.expr right.expr

end Grouping

namespace Grammar

open Scanner

variable {α : Type} {p : Scanner Expr} {write : α → List Char} {read : α → Expr}
  {t : Grouping Sign α} {e : Expr} {cs rest left : List Char}

/-- What is written for an operand is read in front of whatever ends it, and starts with nothing that an
operator could go on with. -/
structure ReadsOperands (p : Scanner Expr) (write : α → List Char) (read : α → Expr) : Prop where
  opens : ∀ a, ∃ c cs, write a = c :: cs ∧ isBlank c = false ∧ c ≠ '=' ∧ c ≠ '?'
  reads : ∀ a rest, EndsOperand rest → signed p (write a ++ rest) = .accept (read a) rest

/-- The scanner of the tightest levels. -/
def tightest (p : Scanner Expr) (k : Nat) : Scanner Expr :=
  (levels.take k).foldl chain (signed p)

theorem tightest_succ {k : Nat} {o : Scanner (Expr → Expr → Expr)} (h : levels[k]? = some o) :
    tightest p (k + 1) = chain (tightest p k) o := by
  rw [tightest, List.take_add_one, h, List.foldl_append]
  rfl

theorem exists_follower (op : ChainOp) : ∃ c cs, op.write = c :: cs ∧ c ∈ followers := by
  rcases op with op | op <;> cases op <;> exact ⟨_, _, rfl, by decide⟩

/-- An operator ends the operand in front of it. -/
theorem endsOperand_sign (s : Sign) (cs : List Char) : EndsOperand (s.text ++ cs) := by
  obtain ⟨c, after, hop, hc⟩ := exists_follower s.op
  have htext : s.text ++ cs = s.before.text ++ c :: (after ++ (s.after.text ++ cs)) := by
    simp [Sign.text, hop]
  rw [htext]
  exact endsOperand_gap s.before.blank hc _

/-- What the tightest levels group is read by them. -/
def ReadsGroupings (p : Scanner Expr) (write : α → List Char) (read : α → Expr) (k : Nat) : Prop :=
  ∀ (t : Grouping Sign α) (rest : List Char), t.Ordered Sign.looseness →
    (∀ s ∈ t.ops, s.looseness < k) → EndsOperand rest → (∀ o ∈ levels.take k, o.Refuses rest) →
    tightest p k (t.text write ++ rest) = .accept (t.expr read) rest

namespace ReadsOperands

variable (h : ReadsOperands p write read)

include h

theorem opens_text (t : Grouping Sign α) :
    ∃ c cs, t.text write = c :: cs ∧ isBlank c = false ∧ c ≠ '=' ∧ c ≠ '?' := by
  induction t with
  | operand a => exact h.opens a
  | join s l r ihl _ =>
    obtain ⟨c, cs, hl, hc⟩ := ihl
    exact ⟨c, cs ++ (s.text ++ r.text write), by rw [Grouping.text, hl, List.cons_append], hc⟩

/-- In front of an operand an operator is read at its level, and no tighter level reads it. -/
theorem levels_at_sign (s : Sign) (t : Grouping Sign α) (rest : List Char) :
    ∃ o, levels[s.looseness]? = some o ∧
      (∀ o' ∈ levels.take s.looseness, o'.Refuses (s.text ++ (t.text write ++ rest))) ∧
      o (s.text ++ (t.text write ++ rest)) = .accept s.op.join (t.text write ++ rest) := by
  obtain ⟨c, cs, ht, hc, hne, -⟩ := h.opens_text t
  have hsign : s.text ++ (t.text write ++ rest) =
      s.before.text ++ (s.op.write ++ (s.after.text ++ (t.text write ++ rest))) := by
    simp [Sign.text]
  rw [hsign]
  apply levels_at s.op s.before.blank s.after.blank
  · rw [ht]
    exact solid_cons hc _
  · rw [ht]
    simpa using hne

/-- Where the tighter levels read what they group, a chain goes on with one operand after the other. By
induction along the operators of the level, which stand on the left of each other. -/
theorem exists_folds {k : Nat} {o : Scanner (Expr → Expr → Expr)} (hlevel : levels[k]? = some o)
    (ih : ReadsGroupings p write read k) (ho : t.Ordered Sign.looseness)
    (hk : ∀ s ∈ t.ops, s.looseness ≤ k) (hr : EndsOperand rest)
    (hrefuse : ∀ o ∈ levels.take k, o.Refuses rest)
    (hf : Folds (tightest p k) o (t.expr read) rest e left) :
    ∃ e₀ cs, tightest p k (t.text write ++ rest) = .accept e₀ cs ∧ Folds (tightest p k) o e₀ cs e left := by
  induction ho generalizing rest with
  | operand a => exact ⟨_, rest, ih _ rest (.operand a) (List.forall_mem_nil _) hr hrefuse, hf⟩
  | @join s l r first second before after ihl _ =>
    rw [Grouping.ops_join, List.forall_mem_append, List.forall_mem_cons] at hk
    obtain ⟨hkl, hks, hkr⟩ := hk
    rcases Nat.lt_or_eq_of_le hks with hlt | heq
    · -- The level has no operator here.
      refine ⟨_, rest, ih _ rest (.join first second before after) ?_ hr hrefuse, hf⟩
      rw [Grouping.ops_join, List.forall_mem_append, List.forall_mem_cons]
      exact ⟨fun s' hs' => Nat.lt_of_le_of_lt (before s' hs') hlt, hlt,
        fun s' hs' => Nat.lt_trans (after s' hs') hlt⟩
    · obtain ⟨o', hlevel', htighter, hsign⟩ := h.levels_at_sign s r rest
      rw [heq] at hlevel' htighter after
      obtain rfl : o' = o := Option.some.inj (hlevel'.symm.trans hlevel)
      have hright := ih r rest second after hr hrefuse
      have hshort : rest.length < (s.text ++ (r.text write ++ rest)).length := by
        obtain ⟨c, cs, htext, -⟩ := h.opens_text r
        simp only [htext, List.length_append, List.length_cons]
        omega
      have hnext := ihl hkl (endsOperand_sign s _) htighter (.more hsign hright hshort hf)
      simpa only [Grouping.text, List.append_assoc] using hnext

/-- A chain of the tightest levels is read as it is grouped. -/
theorem readsGroupings {k : Nat} (hk : k ≤ levels.length) : ReadsGroupings p write read k := by
  induction k with
  | zero =>
    intro t rest ho hops hr _
    cases ho with
    | operand a => exact h.reads a rest hr
    | @join s => exact absurd (hops s (by simp)) (Nat.not_lt_zero _)
  | succ k ih =>
    intro t rest ho hops hr hrefuse
    have hlevel : levels[k]? = some levels[k] := List.getElem?_eq_getElem hk
    rw [List.take_add_one, hlevel, List.forall_mem_append] at hrefuse
    obtain ⟨htighter, hown⟩ := hrefuse
    obtain ⟨e, cs, hfirst, hfolds⟩ := h.exists_folds hlevel (ih (Nat.le_of_succ_le hk)) ho
      (fun s hs => Nat.le_of_lt_succ (hops s hs)) hr htighter
      (.done (hown _ (by simp)))
    rw [tightest_succ hlevel]
    exact hfolds.chain_eq hfirst

/-- A chain is read as it is grouped where no operator follows. -/
theorem coalescings_grouping (ho : t.Ordered Sign.looseness) (hr : EndsOperand rest)
    (hrefuse : ∀ o ∈ levels, o.Refuses rest) :
    coalescings p (t.text write ++ rest) = .accept (t.expr read) rest := by
  rw [coalescings_eq]
  exact h.readsGroupings (Nat.le_refl levels.length) t rest ho (fun s _ => s.op.looseness_lt) hr hrefuse

end ReadsOperands

/-! ## Operands in parentheses -/

/-- A blank on either side. -/
def Sign.spaced (op : ChainOp) : Sign :=
  ⟨⟨[' '], Grammar.blank_singleton⟩, op, ⟨[' '], Grammar.blank_singleton⟩⟩

theorem readsOperands_inParens (hp : Starts p) :
    ReadsOperands p (fun a : {e : Expr // Reads p e} => inParens a.1.write) (fun a => a.1) where
  opens a := ⟨'(', a.1.write ++ [')'], rfl, by decide⟩
  reads a rest hr := signed_inParens hp a.2 (suffix_refuses hr)

theorem coalescings_joined {l r : Expr} (op : ChainOp) (hp : Starts p) (hl : Reads p l)
    (hright : Reads p r) (hr : Ends rest) :
    coalescings p (inParens l.write ++ ' ' :: (op.write ++ ' ' :: (inParens r.write ++ rest))) =
      .accept (op.join l r) rest := by
  have ho : (Grouping.join (Sign.spaced op) (.operand (⟨l, hl⟩ : {e : Expr // Reads p e}))
      (.operand ⟨r, hright⟩)).Ordered Sign.looseness :=
    .join (.operand _) (.operand _) (List.forall_mem_nil _) (List.forall_mem_nil _)
  have hread := (readsOperands_inParens hp).coalescings_grouping ho hr.endsOperand (levels_refuse hr)
  simpa [Grouping.text, Grouping.expr, Sign.text, Sign.spaced] using hread

end Grammar

end LiveDoc
