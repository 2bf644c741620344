import Mathlib.Data.List.Basic
import Mathlib.Tactic.Common

/-! # Grouping operators

Operands with operators between them are grouped by how loose the operators are: an operator joins what
is grouped by operators that are no looser on its left and by tighter ones on its right. Every chain has
exactly one such grouping.
-/

namespace LiveDoc

variable {σ α : Type}

/-- Operands with operators between them. -/
structure OperatorChain (σ α : Type) where
  first : α
  links : List (σ × α)

inductive Grouping (σ α : Type) where
  | operand (a : α)
  | join (op : σ) (left right : Grouping σ α)

namespace Grouping

def first : Grouping σ α → α
  | operand a => a
  | join _ left _ => left.first

def links : Grouping σ α → List (σ × α)
  | operand _ => []
  | join op left right => left.links ++ (op, right.first) :: right.links

/-- What is grouped. -/
def chain (t : Grouping σ α) : OperatorChain σ α :=
  ⟨t.first, t.links⟩

def ops (t : Grouping σ α) : List σ :=
  t.links.map (·.1)

@[simp] theorem ops_join (op : σ) (l r : Grouping σ α) : (join op l r).ops = l.ops ++ op :: r.ops := by
  simp only [ops, links, List.map_append, List.map_cons]

variable (looseness : σ → Nat)

/-- No operator on the left of another is looser than it, and those on the right are tighter. -/
inductive Ordered : Grouping σ α → Prop where
  | operand (a : α) : Ordered (.operand a)
  | join {op : σ} {left right : Grouping σ α} (first : Ordered left) (second : Ordered right)
    (before : ∀ o ∈ left.ops, looseness o ≤ looseness op)
    (after : ∀ o ∈ right.ops, looseness o < looseness op) : Ordered (.join op left right)

/-- Group one more operand behind the last. -/
def add (t : Grouping σ α) (op : σ) (a : α) : Grouping σ α :=
  match t with
  | operand b => join op (operand b) (operand a)
  | join op' left right =>
    if looseness op' ≤ looseness op then join op (join op' left right) (operand a)
    else join op' left (right.add op a)

variable {looseness} {t u : Grouping σ α}

theorem first_add (t : Grouping σ α) (op : σ) (a : α) : (t.add looseness op a).first = t.first := by
  cases t with
  | operand b => rfl
  | join op' l r =>
    rw [add]
    split <;> rfl

theorem links_add (t : Grouping σ α) (op : σ) (a : α) :
    (t.add looseness op a).links = t.links ++ [(op, a)] := by
  induction t with
  | operand b => rfl
  | join op' l r _ ih =>
    rw [add]
    split
    · rfl
    · rw [links, links, ih, first_add, List.append_assoc, List.cons_append]

theorem ops_add (t : Grouping σ α) (op : σ) (a : α) : (t.add looseness op a).ops = t.ops ++ [op] := by
  rw [ops, links_add, List.map_append]
  rfl

theorem Ordered.add (h : t.Ordered looseness) (op : σ) (a : α) :
    (t.add looseness op a).Ordered looseness := by
  induction h with
  | operand b =>
    exact .join (.operand b) (.operand a) (List.forall_mem_nil _) (List.forall_mem_nil _)
  | @join op' l r first second before after _ ih =>
    rw [Grouping.add]
    split
    · next hle =>
      refine .join (.join first second before after) (.operand a) ?_ (List.forall_mem_nil _)
      rw [ops_join, List.forall_mem_append, List.forall_mem_cons]
      exact ⟨fun o ho => Nat.le_trans (before o ho) hle, hle, fun o ho =>
        Nat.le_trans (Nat.le_of_lt (after o ho)) hle⟩
    · next hlt =>
      refine .join first ih before ?_
      rw [ops_add, List.forall_mem_append, List.forall_mem_singleton]
      exact ⟨after, Nat.lt_of_not_le hlt⟩

/-- The loosest operator that stands last divides a chain in one way only. -/
theorem links_split_unique {before before' after after' : List (σ × α)} {x x' : σ × α}
    (h : before ++ x :: after = before' ++ x' :: after')
    (hb : ∀ y ∈ before, looseness y.1 ≤ looseness x.1) (ha : ∀ y ∈ after, looseness y.1 < looseness x.1)
    (hb' : ∀ y ∈ before', looseness y.1 ≤ looseness x'.1)
    (ha' : ∀ y ∈ after', looseness y.1 < looseness x'.1) :
    before = before' ∧ x = x' ∧ after = after' := by
  rcases List.append_eq_append_iff.1 h with ⟨mid, rfl, hmid⟩ | ⟨mid, rfl, hmid⟩
  · cases mid with
    | nil => exact ⟨(List.append_nil _).symm, List.cons.inj hmid⟩
    | cons y mid =>
      obtain ⟨rfl, rfl⟩ := List.cons.inj hmid
      have hle := hb' x (List.mem_append_right _ List.mem_cons_self)
      have hlt := ha x' (List.mem_append_right _ List.mem_cons_self)
      omega
  · cases mid with
    | nil =>
      obtain ⟨rfl, rfl⟩ := List.cons.inj hmid
      exact ⟨List.append_nil _, rfl, rfl⟩
    | cons y mid =>
      obtain ⟨rfl, rfl⟩ := List.cons.inj hmid
      have hle := hb x' (List.mem_append_right _ List.mem_cons_self)
      have hlt := ha' x (List.mem_append_right _ List.mem_cons_self)
      omega

theorem Ordered.unique (ht : t.Ordered looseness) (hu : u.Ordered looseness) (h : t.chain = u.chain) :
    t = u := by
  obtain ⟨hfirst, hlinks⟩ := OperatorChain.mk.inj h
  clear h
  induction ht generalizing u with
  | operand a =>
    cases hu with
    | operand b => exact congrArg _ hfirst
    | join => cases (List.append_eq_nil_iff.1 hlinks.symm).2
  | @join op l r _ _ before after ihl ihr =>
    cases hu with
    | operand b => cases (List.append_eq_nil_iff.1 hlinks).2
    | @join op' l' r' first' second' before' after' =>
      rw [ops, List.forall_mem_map] at before after before' after'
      obtain ⟨hleft, hop, hright⟩ := links_split_unique hlinks before after before' after'
      obtain ⟨rfl, hsecond⟩ := Prod.mk.inj hop
      rw [ihl first' hfirst hleft, ihr second' hsecond hright]

end Grouping

namespace OperatorChain

variable {looseness : σ → Nat}

/-- The operands grouped one after the other. -/
def group (looseness : σ → Nat) (c : OperatorChain σ α) : Grouping σ α :=
  c.links.foldl (fun t link => t.add looseness link.1 link.2) (.operand c.first)

theorem ordered_group (c : OperatorChain σ α) : (c.group looseness).Ordered looseness := by
  obtain ⟨a, links⟩ := c
  have hall (t : Grouping σ α) (ht : t.Ordered looseness) :
      (links.foldl (fun t link => t.add looseness link.1 link.2) t).Ordered looseness := by
    induction links generalizing t with
    | nil => exact ht
    | cons link links ih => exact ih _ (ht.add link.1 link.2)
  exact hall _ (.operand a)

theorem chain_group (c : OperatorChain σ α) : (c.group looseness).chain = c := by
  obtain ⟨a, links⟩ := c
  have hall (t : Grouping σ α) : (links.foldl (fun t link => t.add looseness link.1 link.2) t).chain =
      ⟨t.first, t.links ++ links⟩ := by
    induction links generalizing t with
    | nil => rw [List.append_nil]; rfl
    | cons link links ih =>
      rw [List.foldl_cons, ih, Grouping.first_add, Grouping.links_add, List.append_assoc]
      rfl
  exact hall (.operand a)

/-- A chain has exactly one grouping by the looseness of its operators. -/
theorem exists_unique_grouping (looseness : σ → Nat) (c : OperatorChain σ α) :
    ∃! t : Grouping σ α, t.Ordered looseness ∧ t.chain = c :=
  ⟨c.group looseness, ⟨c.ordered_group, c.chain_group⟩, fun _ ⟨hu, hc⟩ =>
    hu.unique c.ordered_group (hc.trans c.chain_group.symm)⟩

/-- An operator joins what was joined from the left by no looser ones. -/
example : (⟨"a", [(1, "b"), (0, "c"), (1, "d")]⟩ : OperatorChain Nat String).group id =
    .join 1 (.join 1 (.operand "a") (.join 0 (.operand "b") (.operand "c"))) (.operand "d") :=
  rfl

end OperatorChain

end LiveDoc
