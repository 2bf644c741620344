import LiveDoc.Evaluation.Operator
import LiveDoc.Proofs.Doubles

/-! # Comparing whole numbers

Numbers are compared by their doubles. Two whole numbers are then in the order of the doubles nearest to
them, which is their own order unless they share one.
-/

namespace LiveDoc

variable {i j : Int} {op : BinaryOp}

/-- A whole number of 64 bits, with or without a sign. -/
def FitsNumber (i : Int) : Prop :=
  -2 ^ 63 ≤ i ∧ i < 2 ^ 64

theorem FitsNumber.log2_le (h : FitsNumber i) : i.natAbs.log2 ≤ 64 := by
  obtain ⟨hlow, hhigh⟩ := h
  exact log2_le_of_lt (by omega)

/-- The operators answer for two values by one ordering. -/
structure ComparesAs (x y : Value) (o : Ordering) : Prop where
  eq : Operator.binary .eq x y = .ok (.bool o.isEq)
  ne : Operator.binary .ne x y = .ok (.bool o.isNe)
  lt : Operator.binary .lt x y = .ok (.bool o.isLT)
  le : Operator.binary .le x y = .ok (.bool o.isLE)
  gt : Operator.binary .gt x y = .ok (.bool o.isGT)
  ge : Operator.binary .ge x y = .ok (.bool o.isGE)

/-- No more than one ordering fits. -/
theorem ComparesAs.unique {x y : Value} {o o' : Ordering} (h : ComparesAs x y o) (h' : ComparesAs x y o') :
    o = o' := by
  have hlt := h.lt.symm.trans h'.lt
  have hgt := h.gt.symm.trans h'.gt
  simp only [Except.ok.injEq, Value.bool.injEq] at hlt hgt
  revert hlt hgt
  cases o <;> cases o' <;> decide

theorem Operand.toFloat_ofNumber (i : Int) : (Operand.ofNumber (.int i)).toFloat = Float.ofInt i := by
  rw [Operand.ofNumber]
  split <;> rfl

theorem Value.looseSame_ints (hi : FitsNumber i) (hj : FitsNumber j) :
    looseSame (.num (.int i)) (.num (.int j)) = (compare (nearest i) (nearest j)).isEq := by
  rw [looseSame, Number.toFloat, Number.toFloat, beq_eq_compare,
    compare_ofInt hi.log2_le hj.log2_le]
  cases compare (nearest i) (nearest j) <;> rfl

theorem Operator.order_ints (op : BinaryOp) (hi : FitsNumber i) (hj : FitsNumber j) :
    order op (.num (.int i)) (.num (.int j)) = .ok (compare (nearest i) (nearest j)) := by
  have hforth := compare_ofInt hi.log2_le hj.log2_le
  have hback := compare_ofInt hj.log2_le hi.log2_le
  have hswap : compare (nearest j) (nearest i) = (compare (nearest i) (nearest j)).swap :=
    Std.OrientedCmp.eq_swap
  rw [hswap] at hback
  show (if (Operand.ofNumber (.int i)).toFloat < (Operand.ofNumber (.int j)).toFloat then _
    else if (Operand.ofNumber (.int j)).toFloat < (Operand.ofNumber (.int i)).toFloat then _
    else if (Operand.ofNumber (.int i)).toFloat == (Operand.ofNumber (.int j)).toFloat then _
    else _) = _
  simp only [Operand.toFloat_ofNumber, lt_iff_compare, beq_eq_compare, hforth, hback]
  cases compare (nearest i) (nearest j) <;> rfl

theorem comparesAs_nearest (hi : FitsNumber i) (hj : FitsNumber j) :
    ComparesAs (.num (.int i)) (.num (.int j)) (compare (nearest i) (nearest j)) := by
  constructor
  · rw [Operator.binary, Value.looseSame_ints hi hj]
  · rw [Operator.binary, Value.looseSame_ints hi hj]
    cases compare (nearest i) (nearest j) <;> rfl
  all_goals
    rw [Operator.binary, Operator.order_ints _ hi hj]
    rfl

/-- Rounding turns no order around, so the order changes only where two numbers become one. -/
theorem compare_nearest_eq_iff :
    compare (nearest i) (nearest j) = compare i j ↔ (nearest i = nearest j → i = j) := by
  rcases lt_trichotomy i j with h | rfl | h
  · have hle := nearest_mono h.le
    rw [compare_lt_iff_lt.2 h, compare_lt_iff_lt]
    omega
  · simp
  · have hle := nearest_mono h.le
    rw [compare_gt_iff_gt.2 h, compare_gt_iff_gt]
    omega

/-- Two whole numbers of 64 bits are compared as the doubles nearest to them are. This is their own order,
for all operators, exactly if they are the same or do not share their double; they do not if one of them has
at most 53 binary digits. -/
theorem integers_compared_by_nearest (hi : FitsNumber i) (hj : FitsNumber j) :
    ComparesAs (.num (.int i)) (.num (.int j)) (compare (nearest i) (nearest j)) ∧
      2 * (nearest i - i).natAbs ≤ 2 ^ (i.natAbs.log2 - 52) ∧
      (ComparesAs (.num (.int i)) (.num (.int j)) (compare i j) ↔ (nearest i = nearest j → i = j)) ∧
      (i.natAbs < 2 ^ 53 ∨ j.natAbs < 2 ^ 53 →
        ComparesAs (.num (.int i)) (.num (.int j)) (compare i j)) := by
  have hnearest := comparesAs_nearest hi hj
  have hexact : ComparesAs (.num (.int i)) (.num (.int j)) (compare i j) ↔
      (nearest i = nearest j → i = j) := by
    rw [← compare_nearest_eq_iff]
    constructor
    · intro h
      exact hnearest.unique h
    · intro h
      rwa [← h]
  refine ⟨hnearest, two_mul_natAbs_nearest_sub_le i, hexact, ?_⟩
  rintro (h | h)
  · exact hexact.2 (eq_of_nearest_eq h)
  · exact hexact.2 fun heq => (eq_of_nearest_eq h heq.symm).symm

/-- The largest number of 53 binary digits is compared with the next as it is, for it has a double alone. -/
theorem last_exact_compared : FitsNumber (2 ^ 53 - 1) ∧ FitsNumber (2 ^ 53) ∧
    Operator.binary .eq (.num (.int (2 ^ 53 - 1))) (.num (.int (2 ^ 53))) = .ok (.bool false) ∧
    Operator.binary .lt (.num (.int (2 ^ 53 - 1))) (.num (.int (2 ^ 53))) = .ok (.bool true) := by
  have hi : FitsNumber (2 ^ 53 - 1) := by constructor <;> decide
  have hj : FitsNumber (2 ^ 53) := by constructor <;> decide
  obtain ⟨-, -, -, hexact⟩ := integers_compared_by_nearest hi hj
  have hcompared := hexact (.inl (by decide))
  exact ⟨hi, hj, hcompared.eq, hcompared.lt⟩

/-- The next two numbers share a double: they are equal for the operators, and neither is less. -/
theorem neighbours_compared_equal :
    ComparesAs (.num (.int (2 ^ 53))) (.num (.int (2 ^ 53 + 1))) .eq ∧
      compare (2 ^ 53 : Int) (2 ^ 53 + 1) = .lt := by
  have hi : FitsNumber (2 ^ 53) := by constructor <;> decide
  have hj : FitsNumber (2 ^ 53 + 1) := by constructor <;> decide
  have hshared : compare (nearest (2 ^ 53)) (nearest (2 ^ 53 + 1)) = .eq := by decide
  exact ⟨hshared ▸ comparesAs_nearest hi hj, by decide⟩

end LiveDoc
