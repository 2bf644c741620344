import LiveDoc.Document.Write
import LiveDoc.Proofs.Selection

/-! # The way of a write

Before its last segment a write enters a member of a mapping, a mapping that it creates, or an item
of an array.
-/

namespace LiveDoc

/-- What a write enters from a value by a segment before the last. -/
inductive Enters (context : Context) : Value → String → Descent → Prop where
  | member {members : Members} {segment key : String} {child : Value}
    (selected : selectKey members segment context = some key) (plain : isMarked key = false)
    (found : members.lookup key = some child) :
    Enters context (.obj members) segment
      ⟨child, context.merge (Context.own child), fun v => .obj (Assoc.put key v members)⟩
  | created {members : Members} {segment : String}
    (selected : selectKey members segment context = none)
    (named : reservedName? segment = none) :
    Enters context (.obj members) segment
      ⟨.obj [], context.merge (Context.own (.obj [])),
        fun v => .obj (Assoc.put segment v members)⟩
  | item {items : List Value} {segment : String} {i : Nat} {child : Value}
    (index : Numeral.index? segment = some i) (found : items[i]? = some child) :
    Enters context (.arr items) segment ⟨child, context, fun v => .arr (items.set i v)⟩

theorem indexAt_eq_ok {path : Path} {segment : String} {i : Nat} :
    indexAt path segment = .ok i ↔ Numeral.index? segment = some i := by
  unfold indexAt
  cases Numeral.index? segment <;> simp

theorem descent_eq_ok {path : Path} {context : Context} {current : Value} {segment : String}
    {d : Descent} :
    descent path context current segment = .ok d ↔ Enters context current segment d := by
  constructor
  · intro h
    unfold descent at h
    split at h
    · next members =>
      split at h
      · next key hs =>
        split at h
        · cases h
        · next hm =>
          split at h
          · next child hl =>
            cases h
            exact .member hs (Bool.eq_false_iff.2 hm) hl
          · cases h
      · next hs =>
        split at h
        · cases h
        · next hr =>
          cases h
          exact .created hs hr
    · next items =>
      split at h
      · cases h
      · next i hi =>
        split at h
        · cases h
        · next child hc =>
          cases h
          exact .item (indexAt_eq_ok.1 hi) hc
    · cases h
  · intro h
    cases h with
    | member hs hm hl => simp [descent, hs, hm, hl]
    | created hs hr => simp [descent, hs, hr]
    | item hi hc => simp [descent, indexAt_eq_ok.2 hi, hc]

theorem Enters.unique {context : Context} {current : Value} {segment : String} {d d' : Descent}
    (h : Enters context current segment d) (h' : Enters context current segment d') : d = d' := by
  have hd : descent .root context current segment = .ok d := descent_eq_ok.2 h
  rw [descent_eq_ok.2 h'] at hd
  exact (Except.ok.inj hd).symm

theorem writeFrom_of_write {document value left : Value} {path : Path} {context : Context}
    (h : write document path value context = (left, .ok ())) :
    writeFrom value .root (context.merge (Context.own document)) document path.segments =
      (left, .ok ()) := by
  unfold write at h
  split at h
  · cases h
  · exact h

end LiveDoc
