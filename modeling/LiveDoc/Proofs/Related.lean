import LiveDoc.Path
import Mathlib.Data.List.Basic

/-! # Related slots

Two slots are related if one lies on the way to the other. A write to one of them may change what a
read of the other finds; a write to an unrelated slot may not.
-/

namespace LiveDoc.Path

/-- One of the paths leads to or through the other. -/
def Related (p q : Path) : Prop :=
  p.segments <+: q.segments ∨ q.segments <+: p.segments

instance (p q : Path) : Decidable (Related p q) :=
  inferInstanceAs (Decidable (_ ∨ _))

theorem Related.refl (p : Path) : Related p p :=
  .inl (List.prefix_refl _)

theorem mem_stages_iff {p q : Path} : q ∈ p.stages ↔ q.segments <+: p.segments := by
  simp only [stages, length, take, List.mem_map, List.mem_range]
  constructor
  · rintro ⟨n, -, rfl⟩
    exact List.take_prefix n p.segments
  · intro h
    refine ⟨q.segments.length, by have := h.length_le; omega, ?_⟩
    rw [← List.prefix_iff_eq_take.1 h]

/-- The proper stages of a path are the slots around it. -/
theorem exists_take_eq_iff {p q : Path} :
    (∃ n < p.length, p.take n = q) ↔ q.segments <+: p.segments ∧ q ≠ p := by
  constructor
  · rintro ⟨n, hn, rfl⟩
    refine ⟨List.take_prefix n p.segments, fun h => ?_⟩
    have := congrArg (fun r => r.segments.length) h
    simp only [take, List.length_take, length] at this hn
    omega
  · rintro ⟨h, hne⟩
    refine ⟨q.segments.length, ?_, ?_⟩
    · refine Nat.lt_of_le_of_ne h.length_le fun hl => hne ?_
      cases p; cases q
      exact congrArg Path.mk (h.eq_of_length hl)
    · rw [take, ← List.prefix_iff_eq_take.1 h]

end LiveDoc.Path
