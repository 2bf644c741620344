import LiveDoc.Template.Scanner
import Mathlib.Tactic.Common

/-! # What scanners read

A scanner accepts behind what it is given or refuses it; a repetition reads a list as long as each item
is read in front of the next.
-/

namespace LiveDoc.Scanner

variable {α β : Type} {p q : Scanner α} {a : α} {as : List α} {cs rest left : List Char}

/-- The scanner refuses, wherever it has come to. -/
def Refuses (p : Scanner α) (cs : List Char) : Prop :=
  ∃ left, p cs = .refuse left

/-! ## One after the other -/

theorem bind_of_accept {f : α → Scanner β} (h : p cs = .accept a rest) : (p >>= f) cs = f a rest := by
  simp only [bind, h]

theorem bind_of_broken {f : α → Scanner β} (h : p cs = .broken rest) : (p >>= f) cs = .broken rest := by
  simp only [bind, h]

theorem Refuses.bind (h : p.Refuses cs) (f : α → Scanner β) : (p >>= f).Refuses cs := by
  obtain ⟨left, h⟩ := h
  exact ⟨left, by simp only [Bind.bind, h]⟩

theorem Refuses.bind_of_accept {f : α → Scanner β} (h : p cs = .accept a rest) (hf : (f a).Refuses rest) :
    (p >>= f).Refuses cs := by
  obtain ⟨left, hf⟩ := hf
  exact ⟨left, (Scanner.bind_of_accept h).trans hf⟩

/-! ## Alternatives -/

theorem orElse_of_accept (h : p cs = .accept a rest) : p.orElse q cs = .accept a rest := by
  rw [orElse, h]

theorem orElse_of_broken (h : p cs = .broken rest) : p.orElse q cs = .broken rest := by
  rw [orElse, h]

theorem Refuses.orElse_eq (h : p.Refuses cs) (q : Scanner α) : p.orElse q cs = q cs := by
  obtain ⟨left, h⟩ := h
  rw [orElse, h]

theorem Refuses.orElse (h : p.Refuses cs) (hq : q.Refuses cs) : (p.orElse q).Refuses cs := by
  rwa [Refuses, h.orElse_eq]

theorem firstOf_of_accept (h : p cs = .accept a rest) (ps : List (Scanner α)) :
    firstOf (p :: ps) cs = .accept a rest := by
  cases ps with
  | nil => exact h
  | cons q ps => exact orElse_of_accept h

theorem firstOf_of_broken (h : p cs = .broken rest) (ps : List (Scanner α)) :
    firstOf (p :: ps) cs = .broken rest := by
  cases ps with
  | nil => exact h
  | cons q ps => exact orElse_of_broken h

/-- Scanners in front that refuse make no difference. -/
theorem firstOf_of_refuses {before : List (Scanner α)} (h : ∀ p ∈ before, p.Refuses cs)
    (ha : p cs = .accept a rest) (after : List (Scanner α)) :
    firstOf (before ++ p :: after) cs = .accept a rest := by
  induction before with
  | nil => exact firstOf_of_accept ha after
  | cons q before ih =>
    have hrest := ih fun r hr => h r (List.mem_cons_of_mem q hr)
    obtain ⟨r, rs, hl⟩ := List.exists_cons_of_ne_nil
      (List.append_ne_nil_of_right_ne_nil before (List.cons_ne_nil p after))
    rw [hl] at hrest
    rw [List.cons_append, hl]
    exact ((h q List.mem_cons_self).orElse_eq _).trans hrest

theorem opt_of_accept (h : p cs = .accept a rest) : p.opt cs = .accept (some a) rest := by
  rw [opt, h]

theorem Refuses.opt (h : p.Refuses cs) : p.opt cs = .accept none cs := by
  obtain ⟨left, h⟩ := h
  rw [Scanner.opt, h]

theorem commit_of_accept (h : p cs = .accept a rest) : p.commit cs = .accept a rest := by
  rw [commit, h]

theorem commit_ne_refuse (left : List Char) : p.commit cs ≠ .refuse left := by
  unfold commit
  split
  · nofun
  · next h => exact h left

/-! ## Repetitions -/

/-- The scanner reads the items one after the other and refuses what comes then. -/
inductive Repeats (p : Scanner α) : List Char → List α → List Char → Prop where
  | done {cs : List Char} (refuses : p.Refuses cs) : Repeats p cs [] cs
  | more {cs rest left : List Char} {a : α} {as : List α} (reads : p cs = .accept a rest)
    (shorter : rest.length < cs.length) (repeats : Repeats p rest as left) :
    Repeats p cs (a :: as) left

theorem Repeats.upTo_eq (h : Repeats p cs as left) {n : Nat} (hn : cs.length ≤ n) :
    p.upTo n cs = .accept as left := by
  induction h generalizing n with
  | @done cs refuses =>
    cases n with
    | zero => rfl
    | succ n =>
      exact bind_of_accept refuses.opt
  | @more cs rest left a as reads shorter repeats ih =>
    obtain ⟨n, rfl⟩ : ∃ m, n = m + 1 := Nat.exists_eq_succ_of_ne_zero (by omega)
    refine (bind_of_accept (opt_of_accept reads)).trans ?_
    exact bind_of_accept (ih (by omega))

theorem Repeats.many_eq (h : Repeats p cs as left) : many p cs = .accept as left :=
  h.upTo_eq (Nat.le_refl cs.length)

/-- What stands in front of every item and of the rest stands in front of the written items. -/
theorem behind_flatMap {write : α → List Char} {Behind : List Char → Prop} (items : List α)
    (behind : ∀ a ∈ items, ∀ rest, Behind (write a ++ rest)) (last : Behind rest) :
    Behind (items.flatMap write ++ rest) := by
  cases items with
  | nil => exact last
  | cons a items =>
    rw [List.flatMap_cons, List.append_assoc]
    exact behind a List.mem_cons_self _

/-- Written items are read if each is in front of the next and in front of the rest. -/
theorem Repeats.of_flatMap {write : α → List Char} {Behind : List Char → Prop} (items : List α)
    (reads : ∀ a ∈ items, ∀ rest, Behind rest → p (write a ++ rest) = .accept a rest)
    (visible : ∀ a ∈ items, write a ≠ []) (behind : ∀ a ∈ items, ∀ rest, Behind (write a ++ rest))
    (last : Behind rest) (refuses : p.Refuses rest) :
    Repeats p (items.flatMap write ++ rest) items rest := by
  induction items with
  | nil => exact .done refuses
  | cons a items ih =>
    rw [List.flatMap_cons, List.append_assoc]
    have htail : Repeats p (items.flatMap write ++ rest) items rest :=
      ih (fun b hb => reads b (List.mem_cons_of_mem a hb))
        (fun b hb => visible b (List.mem_cons_of_mem a hb))
        (fun b hb => behind b (List.mem_cons_of_mem a hb))
    have hnext : Behind (items.flatMap write ++ rest) :=
      behind_flatMap items (fun b hb => behind b (List.mem_cons_of_mem a hb)) last
    have hpos := List.length_pos_iff.2 (visible a List.mem_cons_self)
    refine .more (reads a List.mem_cons_self _ hnext) ?_ htail
    simp only [List.length_append]
    omega

theorem separatedBy_nil {sep : Scanner β} (h : p.Refuses cs) : separatedBy sep p cs = .accept [] cs := by
  exact bind_of_accept h.opt

theorem separatedBy_cons {sep : Scanner β} (h : p cs = .accept a rest)
    (t : Repeats (do let _ ← sep; p) rest as left) : separatedBy sep p cs = .accept (a :: as) left := by
  refine (bind_of_accept (opt_of_accept h)).trans ?_
  exact bind_of_accept t.many_eq

/-! ## Operators -/

variable {operator : Scanner (α → α → α)} {b : α}

/-- Behind an operand, operators and operands are read in turn and joined from the left. -/
inductive Folds (p : Scanner α) (operator : Scanner (α → α → α)) :
    α → List Char → α → List Char → Prop where
  | done {a : α} {cs : List Char} (refuses : operator.Refuses cs) : Folds p operator a cs a cs
  | more {a b c : α} {join : α → α → α} {cs rest next left : List Char}
    (joins : operator cs = .accept join rest) (reads : p rest = .accept b next)
    (shorter : next.length < cs.length) (folds : Folds p operator (join a b) next c left) :
    Folds p operator a cs c left

theorem Folds.chainFrom_eq (h : Folds p operator a cs b left) {n : Nat} (hn : cs.length ≤ n) :
    chainFrom p operator n a cs = .accept b left := by
  induction h generalizing n with
  | done refuses =>
    cases n with
    | zero => rfl
    | succ n => exact bind_of_accept refuses.opt
  | @more a b c join cs rest next left joins reads shorter folds ih =>
    obtain ⟨n, rfl⟩ : ∃ m, n = m + 1 := Nat.exists_eq_succ_of_ne_zero (by omega)
    refine (bind_of_accept (opt_of_accept joins)).trans ?_
    refine (bind_of_accept reads).trans ?_
    exact ih (by omega)

theorem Folds.chain_eq (hf : Folds p operator a rest b left) (h : p cs = .accept a rest) :
    chain p operator cs = .accept b left :=
  (bind_of_accept h).trans (hf.chainFrom_eq (Nat.le_refl _))

/-- An operand with no operator behind it stands alone. -/
theorem chain_of_refuses (h : p cs = .accept a rest) (ho : operator.Refuses rest) :
    chain p operator cs = .accept a rest :=
  Folds.chain_eq (.done ho) h

/-! ## Characters -/

variable {c d : Char} {holds : Char → Bool} {run : List Char}

theorem one_refuses (h : ∀ c ∈ cs.head?, holds c = false) : (one holds).Refuses cs := by
  cases cs with
  | nil => exact ⟨_, rfl⟩
  | cons c cs =>
    have hc := h c rfl
    exact ⟨c :: cs, by rw [one, hc]; rfl⟩

theorem one_cons (h : holds c = true) : one holds (c :: cs) = .accept c cs := by
  rw [one, h]
  rfl

theorem char_cons (c : Char) (cs : List Char) : char c (c :: cs) = .accept () cs := by
  exact bind_of_accept (one_cons (beq_self_eq_true c))

theorem char_refuses (h : cs.head? ≠ some d) : (char d).Refuses cs := by
  refine (one_refuses fun c hc => ?_).bind _
  rw [Option.mem_def] at hc
  simp only [beq_eq_false_iff_ne]
  rintro rfl
  exact h hc

theorem takeWhile_append (h : ∀ c ∈ run, holds c = true) (hr : ∀ c ∈ rest.head?, holds c = false) :
    (run ++ rest).takeWhile holds = run ∧ (run ++ rest).dropWhile holds = rest := by
  rw [List.takeWhile_append_of_pos h, List.dropWhile_append_of_pos h]
  cases rest with
  | nil => simp
  | cons c rest =>
    have hc := hr c rfl
    simp [hc]

theorem run_append (h : ∀ c ∈ run, holds c = true) (hr : ∀ c ∈ rest.head?, holds c = false) :
    Scanner.run holds (run ++ rest) = .accept run rest := by
  obtain ⟨ht, hd⟩ := takeWhile_append h hr
  rw [Scanner.run, ht, hd]

theorem run_of_head (h : ∀ c ∈ cs.head?, holds c = false) : Scanner.run holds cs = .accept [] cs :=
  run_append (List.forall_mem_nil _) h

theorem run₁_append (h : ∀ c ∈ run, holds c = true) (hne : run ≠ [])
    (hr : ∀ c ∈ rest.head?, holds c = false) : run₁ holds (run ++ rest) = .accept run rest := by
  obtain ⟨ht, hd⟩ := takeWhile_append h hr
  obtain ⟨c, run, rfl⟩ := List.exists_cons_of_ne_nil hne
  rw [run₁, ht, hd]

theorem run₁_refuses (h : ∀ c ∈ cs.head?, holds c = false) : (run₁ holds).Refuses cs := by
  have ht : cs.takeWhile holds = [] := by
    cases cs with
    | nil => rfl
    | cons c cs => exact List.takeWhile_cons_of_neg (by rw [h c rfl]; exact Bool.false_ne_true)
  exact ⟨cs, by rw [run₁, ht]⟩

theorem token_append (t rest : List Char) : token t (t ++ rest) = .accept () rest := by
  rw [token, if_pos (List.isPrefixOf_iff_prefix.2 (List.prefix_append t rest)), List.drop_left]

theorem token_refuses {t : List Char} (h : cs.head? ≠ some d) : (token (d :: t)).Refuses cs := by
  refine ⟨cs, ?_⟩
  rw [token, if_neg]
  intro hp
  obtain ⟨rest, rfl⟩ := List.isPrefixOf_iff_prefix.1 hp
  exact h rfl

theorem token_pair_refuses (h : cs.head? ≠ some d) (c : Char) : (token [c, d]).Refuses (c :: cs) := by
  refine ⟨c :: cs, ?_⟩
  rw [token, if_neg]
  intro hp
  obtain ⟨rest, hrest⟩ := List.isPrefixOf_iff_prefix.1 hp
  cases hrest
  exact h rfl

end LiveDoc.Scanner
