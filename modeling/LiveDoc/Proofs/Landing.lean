import LiveDoc.Proofs.Edits
import LiveDoc.Proofs.FailedWrite
import LiveDoc.Proofs.KeptKeys

/-! # Where a write lands

A write that goes through puts its value at a place: at the keys that its segments select on the way,
and under its last segment there.
-/

namespace LiveDoc

/-- The key or the index by which a write goes on from a value. -/
def wayOn (context : Context) (current : Value) (segment : String) : String :=
  match current with
  | .obj members => (selectKey members segment context).getD segment
  | _ => segment

/-- The place at which a write below a value puts its value. -/
def writtenPlace (context : Context) (current : Value) : List String → List String
  | [] => []
  | [segment] => [segment]
  | segment :: next :: rest =>
    wayOn context current segment ::
      match descent .root context current segment with
      | .ok d => writtenPlace d.context d.child (next :: rest)
      | .error _ => next :: rest

/-- The value that takes up the last segment of a write. -/
def receiver (context : Context) (current : Value) : List String → Value
  | [] | [_] => current
  | segment :: next :: rest =>
    match descent .root context current segment with
    | .ok d => receiver d.context d.child (next :: rest)
    | .error _ => current

section

variable {value current left : Value} {path : Path} {context : Context}
  {segment next : String} {rest : List String} {d : Descent}

theorem writtenPlace_cons_cons (h : Enters context current segment d) :
    writtenPlace context current (segment :: next :: rest) =
      wayOn context current segment :: writtenPlace d.context d.child (next :: rest) := by
  rw [writtenPlace, descent_eq_ok.2 h]

theorem receiver_cons_cons (h : Enters context current segment d) :
    receiver context current (segment :: next :: rest) =
      receiver d.context d.child (next :: rest) := by
  rw [receiver, descent_eq_ok.2 h]

/-- A write goes through with one segment if the value takes it up, and with more if it enters what
the first names and goes through there. -/
theorem writeFrom_singleton_eq_ok :
    writeFrom value path context current [segment] = (left, .ok ()) ↔
      writeLast value path current segment = .ok left := by
  cases hw : writeLast value path current segment <;> simp [writeFrom, hw]

theorem writeFrom_cons_cons_eq_ok :
    writeFrom value path context current (segment :: next :: rest) = (left, .ok ()) ↔
      ∃ d below, Enters context current segment d ∧
        writeFrom value (path.child segment) d.context d.child (next :: rest) = (below, .ok ()) ∧
        left = d.rebuild below := by
  constructor
  · intro h
    cases hd : descent path context current segment with
    | error e => simp [writeFrom, hd] at h
    | ok d =>
      simp only [writeFrom, hd, Prod.mk.injEq] at h
      exact ⟨d, _, descent_eq_ok.1 hd, Prod.ext rfl h.2, h.1.symm⟩
  · rintro ⟨d, below, hent, hb, rfl⟩
    rw [writeFrom_cons_cons hent, hb]

theorem writeLast_eq_ok : writeLast value path current segment = .ok left ↔
    (∃ members, current = .obj members ∧ left = .obj (fillSlot members segment value)) ∨
      ∃ items i, current = .arr items ∧ Numeral.index? segment = some i ∧
        ((i < items.length ∧ left = .arr (items.set i value)) ∨
          (i = items.length ∧ left = .arr (items ++ [value]))) := by
  cases current with
  | obj members => simp [writeLast, eq_comm]
  | arr items =>
    simp only [writeLast, bind, Except.bind]
    cases hi : Numeral.index? segment with
    | none => simp [indexAt, hi]
    | some i =>
      simp only [indexAt_eq_ok.2 hi, reduceCtorEq, false_and, exists_false, false_or, Value.arr.injEq,
        Option.some.injEq, exists_and_left, exists_eq_left']
      split
      · next hlt =>
        have hne : i ≠ items.length := by omega
        simp [hlt, hne, eq_comm]
      · next hlt =>
        split
        · next he => simp [he, eq_comm]
        · next hne => simp [hlt, hne]
  | _ => simp [writeLast]

end

theorem counterpart_ne (key : String) : counterpart key ≠ key := by
  intro h
  have hl : (counterpart key).toList.length = key.toList.length := by rw [h]
  unfold counterpart unmark? Text.stripHead? at hl
  cases hk : key.toList with
  | nil => simp [hk, mark] at hl
  | cons c rest =>
    by_cases hc : c = marker <;> simp [hk, hc, mark] at hl

/-- What a filled slot holds. -/
theorem lookup_fillSlot_self (members : Members) (key : String) (value : Value) :
    (fillSlot members key value).lookup key = some value := by
  rw [fillSlot, Assoc.lookup_put, if_pos rfl]

/-- A filled slot has lost the other spelling of its key. -/
theorem lookup_fillSlot_counterpart {members : Members} (hd : (members.map (·.1)).Nodup) (key : String)
    (value : Value) : (fillSlot members key value).lookup (counterpart key) = none := by
  rw [fillSlot, Assoc.lookup_put, if_neg (counterpart_ne key), Assoc.lookup_eq_none_iff,
    Assoc.keys_erase]
  exact hd.not_mem_erase

/-- What stands beside a filled slot is no other spelling of its key, and stood there before. -/
theorem lookup_fillSlot_of_ne {members : Members} (hd : (members.map (·.1)).Nodup) {key key' : String}
    {value : Value} (hne : key' ≠ key) (hk : ((fillSlot members key value).lookup key').isSome) :
    key' ≠ counterpart key ∧ (fillSlot members key value).lookup key' = members.lookup key' := by
  have hother : key' ≠ counterpart key := by
    rintro rfl
    rw [lookup_fillSlot_counterpart hd] at hk
    cases hk
  exact ⟨hother, by rw [fillSlot, Assoc.lookup_put, if_neg hne, Assoc.lookup_erase_of_ne hother]⟩

section

variable {value current left below : Value} {path : Path} {context : Context} {segment : String}
  {segments : List String} {d : Descent}

theorem wayOn_of_selected {members : Members} {key : String}
    (h : selectKey members segment context = some key) :
    wayOn context (.obj members) segment = key := by
  rw [wayOn, h, Option.getD_some]

theorem wayOn_of_created {members : Members} (h : selectKey members segment context = none) :
    wayOn context (.obj members) segment = segment := by
  rw [wayOn, h, Option.getD_none]

/-- What a write rebuilds holds the part that it went on to. -/
theorem Enters.child?_rebuild (h : Enters context current segment d) (below : Value) :
    (d.rebuild below).child? (wayOn context current segment) = some below := by
  cases h with
  | member hs =>
    rw [wayOn_of_selected hs]
    simp only [Value.child?, Assoc.lookup_put, if_true]
  | created hs =>
    rw [wayOn_of_created hs]
    simp only [Value.child?, Assoc.lookup_put, if_true]
  | item hi hc =>
    obtain ⟨hlt, -⟩ := List.getElem?_eq_some_iff.1 hc
    simp only [Value.child?, wayOn, hi, Option.bind_some, List.getElem?_set_self hlt]

theorem child?_of_writeLast (h : writeLast value path current segment = .ok left) :
    left.child? segment = some value := by
  rcases writeLast_eq_ok.1 h with ⟨members, -, rfl⟩ | ⟨items, i, -, hi, ⟨hlt, rfl⟩ | ⟨rfl, rfl⟩⟩
  · exact lookup_fillSlot_self members segment value
  · simp only [Value.child?, hi, Option.bind_some, List.getElem?_set_self hlt]
  · simp only [Value.child?, hi, Option.bind_some, List.getElem?_concat_length]

/-- After a write its value stands at the written place. -/
theorem descend?_writtenPlace
    (h : writeFrom value path context current segments = (left, .ok ())) :
    left.descend? (writtenPlace context current segments) = some value := by
  induction segments generalizing path context current left with
  | nil => simp [writeFrom] at h
  | cons segment rest ih =>
    cases rest with
    | nil =>
      simp only [writtenPlace, Value.descend?, child?_of_writeLast (writeFrom_singleton_eq_ok.1 h),
        Option.bind_some]
    | cons next rest =>
      obtain ⟨d, below, hent, hb, rfl⟩ := writeFrom_cons_cons_eq_ok.1 h
      rw [writtenPlace_cons_cons hent, Value.descend?, hent.child?_rebuild, Option.bind_some, ih hb]

end

namespace Tree

variable {σ : Type} {t t' : Tree σ} {path : Path} {value : Value}

/-- What a write makes of a tree. -/
theorem setAt_eq_ok (h : t.setAt path value = (t', .ok ())) : ∃ left,
    writeFrom value .root (t.context.merge (Context.own t.document)) t.document path.segments =
      (left, .ok ()) ∧ t' = t.written left path := by
  unfold setAt write at h
  split at h
  · next left hw =>
    split at hw
    · cases hw
    · exact ⟨left, hw, (Prod.mk.inj h).1.symm⟩
  · cases h

end Tree

end LiveDoc
