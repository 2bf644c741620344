import LiveDoc.Proofs.Scanning
import LiveDoc.Template.Parse
import Mathlib

/-! # Lines and columns

A line and a column tell where in a text a part of it ends. No two parts that a text begins with end
at the same line and column.
-/

namespace LiveDoc.SyntaxError

def line : SyntaxError → Nat
  | .unexpected line _ _ | .endOfText line _ => line

def column : SyntaxError → Nat
  | .unexpected _ column _ | .endOfText _ column => column

/-- The text ends in a line, counted by the line breaks in it, and behind as many bytes of that line;
both count from one. -/
structure EndsAt (cs : List Char) (line column : Nat) : Prop where
  line : line = 1 + cs.count '\n'
  column : ∃ front last, cs = front ++ last ∧ (∀ c ∈ front.getLast?, c = '\n') ∧ '\n' ∉ last ∧
    column = (last.map Char.utf8Size).sum + 1

variable {cs more p q text : List Char} {l c : Nat}

theorem foldr_utf8Size (cs : List Char) (n : Nat) :
    cs.foldr (·.utf8Size + ·) n = (cs.map Char.utf8Size).sum + n := by
  induction cs with
  | nil => simp
  | cons c cs ih => rw [List.foldr_cons, ih, List.map_cons, List.sum_cons, Nat.add_assoc]

/-- The last line alone decides about the column. -/
theorem columnAfter_append {front last : List Char} (hf : ∀ c ∈ front.getLast?, c = '\n')
    (hl : '\n' ∉ last) : columnAfter (front ++ last) = (last.map Char.utf8Size).sum + 1 := by
  have hlast : ∀ c ∈ last.reverse, (c != '\n') = true := by
    intro c hc
    rw [bne_iff_ne]
    rintro rfl
    exact hl (List.mem_reverse.1 hc)
  have hfront : ∀ c ∈ front.reverse.head?, (c != '\n') = false := by
    intro c hc
    rw [List.head?_reverse] at hc
    rw [hf c hc]
    rfl
  rw [columnAfter, List.reverse_append, (Scanner.takeWhile_append hlast hfront).1, foldr_utf8Size,
    List.map_reverse, List.sum_reverse]

theorem endsAt_iff : EndsAt cs l c ↔ l = lineAfter cs ∧ c = columnAfter cs := by
  constructor
  · rintro ⟨rfl, front, last, rfl, hf, hl, rfl⟩
    exact ⟨Nat.add_comm 1 _, (columnAfter_append hf hl).symm⟩
  · rintro ⟨rfl, rfl⟩
    have hf : ∀ c ∈ (cs.rdropWhile (· != '\n')).getLast?, c = '\n' := by
      intro c hc
      by_contra hne
      have hstop := List.rdropWhile_last_not (· != '\n') cs (List.ne_nil_of_mem (List.mem_of_mem_getLast? hc))
      rw [List.getLast_of_mem_getLast? hc] at hstop
      exact hstop (bne_iff_ne.2 hne)
    have hl : '\n' ∉ cs.rtakeWhile (· != '\n') := by
      intro hm
      have hkind := List.mem_rtakeWhile_imp hm
      simp at hkind
    have hcs : cs = cs.rdropWhile (· != '\n') ++ cs.rtakeWhile (· != '\n') :=
      List.rdropWhile_append_rtakeWhile.symm
    refine ⟨Nat.add_comm _ 1, _, _, hcs, hf, hl, ?_⟩
    rw [← columnAfter_append hf hl, ← hcs]

theorem endsAt_after (cs : List Char) : EndsAt cs (lineAfter cs) (columnAfter cs) :=
  endsAt_iff.2 ⟨rfl, rfl⟩

theorem columnAfter_more (h : '\n' ∉ more) :
    columnAfter (cs ++ more) = columnAfter cs + (more.map Char.utf8Size).sum := by
  obtain ⟨front, last, rfl, hf, hl, hc⟩ := (endsAt_after cs).column
  rw [hc, List.append_assoc, columnAfter_append hf (by simp [hl, h]), List.map_append, List.sum_append]
  omega

/-- What ends at the same line and column is the same. -/
theorem eq_nil_of_endsAt (h : EndsAt cs l c) (h' : EndsAt (cs ++ more) l c) : more = [] := by
  have hlines : '\n' ∉ more := by
    have hcount := h.line.symm.trans h'.line
    rw [List.count_append] at hcount
    exact List.count_eq_zero.1 (by omega)
  have hbytes : (more.map Char.utf8Size).sum = 0 := by
    have hcolumn := (endsAt_iff.1 h).2.symm.trans (endsAt_iff.1 h').2
    rw [columnAfter_more hlines] at hcolumn
    omega
  cases more with
  | nil => rfl
  | cons d more =>
    rw [List.map_cons, List.sum_cons] at hbytes
    have hpos := d.utf8Size_pos
    omega

/-- A line and a column belong to one place of a text. -/
theorem EndsAt.unique (hp : p <+: text) (hq : q <+: text) (h : EndsAt p l c) (h' : EndsAt q l c) :
    p = q := by
  rcases List.prefix_or_prefix_of_prefix hp hq with ⟨more, rfl⟩ | ⟨more, rfl⟩
  · rw [eq_nil_of_endsAt h h', List.append_nil]
  · rw [eq_nil_of_endsAt h' h, List.append_nil]

/-- The text is split where the line and the column of the error point. -/
structure Splits (e : SyntaxError) (text consumed rest : List Char) : Prop where
  text : text = consumed ++ rest
  ends : EndsAt consumed e.line e.column

variable {e : SyntaxError} {consumed consumed' rest rest' : List Char}

theorem splits_stoppedAt (consumed rest : List Char) :
    (stoppedAt (consumed ++ rest) rest).Splits (consumed ++ rest) consumed rest := by
  have hconsumed : (consumed ++ rest).take ((consumed ++ rest).length - rest.length) = consumed := by
    rw [List.length_append, Nat.add_sub_cancel, List.take_left]
  refine ⟨rfl, endsAt_iff.2 ?_⟩
  unfold stoppedAt
  rw [hconsumed]
  cases rest <;> exact ⟨rfl, rfl⟩

/-- An error points to one place of the text. -/
theorem Splits.unique (h : e.Splits text consumed rest) (h' : e.Splits text consumed' rest') :
    consumed = consumed' ∧ rest = rest' := by
  obtain rfl := EndsAt.unique ⟨rest, h.text.symm⟩ ⟨rest', h'.text.symm⟩ h.ends h'.ends
  exact ⟨rfl, List.append_cancel_left (h.text.symm.trans h'.text)⟩

theorem stoppedAt_eq_endOfText_iff (text rest : List Char) :
    (∃ line column, stoppedAt text rest = .endOfText line column) ↔ rest = [] := by
  unfold stoppedAt
  cases rest <;> simp

end LiveDoc.SyntaxError
