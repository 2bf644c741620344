import LiveDoc.Proofs.ReadBack

/-! # The last write

A second write at the same path goes the way of the first and leaves what it would have left alone. It
is refused only where the first has created a mapping under a key with the expression marker, which no
write enters.
-/

namespace LiveDoc

section

variable {value value' current left : Value} {path : Path} {context : Context} {segment next : String}
  {rest segments : List String} {d : Descent}

/-! ## The last segment -/

theorem fillSlot_fillSlot {members : Members} (hd : (members.map (·.1)).Nodup) (segment : String)
    (value value' : Value) :
    fillSlot (fillSlot members segment value) segment value' = fillSlot members segment value' := by
  have hother : counterpart segment ∉ (fillSlot members segment value).map (·.1) :=
    Assoc.lookup_eq_none_iff.1 (lookup_fillSlot_counterpart hd segment value)
  rw [fillSlot, Assoc.erase_of_not_mem hother, fillSlot, Assoc.put_put, fillSlot]

/-- An item that a write has put behind the last one is replaced by the next write. -/
theorem writeLast_writeLast (h : writeLast value path current segment = .ok left)
    (hd : current.Distinct) :
    writeLast value' path left segment = writeLast value' path current segment := by
  rcases writeLast_eq_ok.1 h with ⟨members, rfl, rfl⟩ | ⟨items, i, rfl, hi, ⟨hlt, rfl⟩ | ⟨rfl, rfl⟩⟩
  · rw [writeLast, fillSlot_fillSlot hd.keys, writeLast]
  · have hset : i < (items.set i value).length := by rwa [List.length_set]
    simp only [writeLast, indexAt_eq_ok.2 hi, bind, Except.bind, if_pos hlt, if_pos hset, List.set_set]
  · have hbehind : (items ++ [value]).set items.length value' = items ++ [value'] := by
      rw [List.set_append_right _ _ (Nat.le_refl _), Nat.sub_self, List.set_cons_zero]
    have hlt : items.length < (items ++ [value]).length := by simp
    simp only [writeLast, indexAt_eq_ok.2 hi, bind, Except.bind, if_pos hlt, Nat.lt_irrefl, if_false,
      if_true, hbehind]

/-! ## The way there -/

/-- What a write has gone through it enters again, be it created on the way, unless its segment has the
marker. -/
theorem Enters.again (h : Enters context current segment d) (hm : isMarked segment = false)
    (below : Value) : ∃ d', Enters context (d.rebuild below) segment d' ∧ d'.child = below ∧
      d'.rebuild = d.rebuild ∧ (Context.own below = Context.own d.child → d'.context = d.context) := by
  have hput (key : String) (members : Members) :
      (fun v => Value.obj (Assoc.put key v (Assoc.put key below members))) =
        fun v => .obj (Assoc.put key v members) :=
    funext fun v => congrArg Value.obj (Assoc.put_put key below v members)
  cases h with
  | @member members _ key child hs hp hl =>
    refine ⟨_, .member ((selectKey_put hl below segment context).trans hs) hp
      (by rw [Assoc.lookup_put, if_pos rfl]), rfl, hput key members, fun he => ?_⟩
    exact congrArg (context.merge ·) he
  | @created members _ hs hr =>
    have hagain : enter? (.obj (Assoc.put segment below members)) segment context =
        some (segment, below) := by
      have he := ((Enters.created hs hr).enter?_rebuild below).2 (Eq.refl (enter? _ segment context))
      rwa [wayOn_of_created hs] at he
    obtain ⟨hs', hl'⟩ := enter?_obj.1 hagain
    refine ⟨_, .member hs' hm hl', rfl, hput segment members, fun he => ?_⟩
    exact congrArg (context.merge ·) he
  | @item items _ i child hi hc =>
    obtain ⟨hlt, -⟩ := List.getElem?_eq_some_iff.1 hc
    refine ⟨_, .item hi (List.getElem?_set_self hlt), rfl, ?_, fun _ => rfl⟩
    exact funext fun v => congrArg Value.arr (List.set_set ..)

/-- A mapping that was created under a key with the marker is not entered again. -/
theorem Enters.refused (h : Enters context current segment d) (hm : isMarked segment = true)
    (path : Path) (below : Value) :
    descent path context (d.rebuild below) segment = .error (.notContainer (path.child segment)) := by
  have hexact : isExact segment = true := by rw [isExact, hm, Bool.or_true]
  cases h with
  | member hs hp =>
    rw [selectKey, if_pos hexact] at hs
    split at hs
    · cases hs
      rw [hm] at hp
      cases hp
    · cases hs
  | created =>
    have hs (members : Members) :
        selectKey (Assoc.put segment below members) segment context = some segment := by
      rw [selectKey, if_pos hexact, Assoc.lookup_put, if_pos rfl]
      rfl
    simp only [descent, hs, hm, if_true]
  | item hi =>
    rw [(isExact_eq_false (isExact_of_index? hi)).2] at hm
    cases hm

/-- With one segment a write looks at no context, and with more the first write leaves it. -/
theorem writeFrom_declared (hw : writeFrom value path context current segments = (left, .ok ()))
    (hc : contextKey ∉ segments) {above above' : Context}
    (ha : Context.own left = Context.own current → above' = above) :
    writeFrom value' path above' left segments = writeFrom value' path above left segments := by
  match segments with
  | [] | [_] => rfl
  | segment :: next :: rest =>
    rw [List.mem_cons, not_or] at hc
    rw [ha (own_of_writeFrom hw (Ne.symm hc.1))]

/-! ## A second write -/

/-- Whether a write goes through does not hang on its value. -/
theorem exists_writeLast (h : writeLast value path current segment = .ok left) (value' : Value) :
    ∃ left', writeLast value' path current segment = .ok left' := by
  rcases writeLast_eq_ok.1 h with ⟨members, rfl, -⟩ | ⟨items, i, rfl, hi, ⟨hlt, -⟩ | ⟨rfl, -⟩⟩
  · exact ⟨_, rfl⟩
  · exact ⟨_, writeLast_eq_ok.2 (.inr ⟨items, i, rfl, hi, .inl ⟨hlt, rfl⟩⟩)⟩
  · exact ⟨_, writeLast_eq_ok.2 (.inr ⟨items, _, rfl, hi, .inr ⟨rfl, rfl⟩⟩)⟩

theorem exists_writeFrom (hw : writeFrom value path context current segments = (left, .ok ()))
    (value' : Value) : ∃ left', writeFrom value' path context current segments = (left', .ok ()) := by
  induction segments generalizing path context current left with
  | nil => simp [writeFrom] at hw
  | cons segment rest ih =>
    cases rest with
    | nil =>
      obtain ⟨left', hl⟩ := exists_writeLast (writeFrom_singleton_eq_ok.1 hw) value'
      exact ⟨left', writeFrom_singleton_eq_ok.2 hl⟩
    | cons next rest =>
      obtain ⟨d, below, hent, hb, -⟩ := writeFrom_cons_cons_eq_ok.1 hw
      obtain ⟨below', hb'⟩ := ih hb
      exact ⟨_, writeFrom_cons_cons_eq_ok.2 ⟨d, below', hent, hb', rfl⟩⟩

/-- Below a value, a second write leaves what it would have left alone. -/
theorem writeFrom_again (hw : writeFrom value path context current segments = (left, .ok ()))
    (hd : current.Distinct) (hc : contextKey ∉ segments)
    (hm : ∀ s ∈ segments.dropLast, isMarked s = false) :
    writeFrom value' path context left segments = writeFrom value' path context current segments := by
  induction segments generalizing path context current left with
  | nil => simp [writeFrom] at hw
  | cons segment rest ih =>
    cases rest with
    | nil =>
      have hl := writeFrom_singleton_eq_ok.1 hw
      obtain ⟨left', hl'⟩ := exists_writeLast hl value'
      rw [writeFrom_singleton_eq_ok.2 hl',
        writeFrom_singleton_eq_ok.2 ((writeLast_writeLast hl hd).trans hl')]
    | cons next rest =>
      obtain ⟨d, below, hent, hb, rfl⟩ := writeFrom_cons_cons_eq_ok.1 hw
      rw [List.dropLast_cons_cons, List.forall_mem_cons] at hm
      rw [List.mem_cons, not_or] at hc
      obtain ⟨d', hent', hchild, hrebuild, hcontext⟩ := hent.again hm.1 below
      rw [writeFrom_cons_cons hent', writeFrom_cons_cons hent, hchild, hrebuild,
        writeFrom_declared hb hc.2 hcontext,
        ih hb (hent.keyed_child keysLast_nodup hd) hc.2 hm.2]

/-- Below a value, a second write stops at the first segment with the marker. -/
theorem writeFrom_refused (hw : writeFrom value path context current segments = (left, .ok ()))
    (hc : contextKey ∉ segments) (hm : ∃ s ∈ segments.dropLast, isMarked s = true) :
    writeFrom value' path context left segments =
      (left, .error (.notContainer (path.append (segments.take (segments.findIdx isMarked + 1))))) := by
  induction segments generalizing path context current left with
  | nil => simp at hm
  | cons segment rest ih =>
    cases rest with
    | nil => simp at hm
    | cons next rest =>
      obtain ⟨d, below, hent, hb, rfl⟩ := writeFrom_cons_cons_eq_ok.1 hw
      cases hs : isMarked segment with
      | true =>
        rw [writeFrom, hent.refused hs, List.findIdx_cons, hs]
        rfl
      | false =>
        rw [List.mem_cons, not_or] at hc
        have hrest : ∃ s ∈ (next :: rest).dropLast, isMarked s = true := by
          simpa only [List.dropLast_cons_cons, List.exists_mem_cons_iff, hs, Bool.false_eq_true,
            false_or] using hm
        obtain ⟨d', hent', hchild, hrebuild, hcontext⟩ := hent.again hs below
        have hplace : (path.child segment).append
            ((next :: rest).take ((next :: rest).findIdx isMarked + 1)) =
              path.append ((segment :: next :: rest).take
                ((segment :: next :: rest).findIdx isMarked + 1)) := by
          rw [List.findIdx_cons (b := segment), hs]
          simp [Path.append, Path.child]
        rw [writeFrom_cons_cons hent', hchild, hrebuild, writeFrom_declared hb hc.2 hcontext,
          ih hb hc.2 hrest, hplace]

end

/-- A second write at the path of a write that went through would go through alone. After the first it
goes through too and leaves the same document, unless a segment before the last has the marker: then the
first has created a mapping under it, and the second is refused there. -/
theorem write_after_write {document value value' left : Value} {path : Path} {context : Context}
    (hd : document.Distinct) (hc : contextKey ∉ path.segments)
    (hw : write document path value context = (left, .ok ())) :
    (write document path value' context).2 = .ok () ∧
    ((∀ s ∈ path.segments.dropLast, isMarked s = false) →
      write left path value' context = write document path value' context) ∧
    ((∃ s ∈ path.segments.dropLast, isMarked s = true) →
      write left path value' context =
        (left, .error (.notContainer (path.take (path.segments.findIdx isMarked + 1))))) := by
  have hfrom := writeFrom_of_write hw
  have hwrite (document value : Value) : write document path value context =
      writeFrom value .root (context.merge (Context.own document)) document path.segments := by
    rw [write]
    split
    · next name hr =>
      rw [write, hr] at hw
      cases hw
    · rfl
  have hleft : writeFrom value' .root (context.merge (Context.own left)) left path.segments =
      writeFrom value' .root (context.merge (Context.own document)) left path.segments :=
    writeFrom_declared hfrom hc fun he => by rw [he]
  rw [hwrite document value', hwrite left value', hleft]
  obtain ⟨left', hleft'⟩ := exists_writeFrom hfrom value'
  refine ⟨by rw [hleft'], writeFrom_again hfrom hd hc, fun hm => ?_⟩
  rw [writeFrom_refused hfrom hc hm]
  rfl

/-- The menu that the first write creates beside the Spanish one is the menu that the second enters. -/
theorem write_after_write_created : ∃ left,
    write (.obj [("m:es", .obj [])]) ⟨["m", "t"]⟩ (.str "a") .empty = (left, .ok ()) ∧
      write left ⟨["m", "t"]⟩ (.str "b") .empty =
        write (.obj [("m:es", .obj [])]) ⟨["m", "t"]⟩ (.str "b") .empty := by
  have hd : (Value.obj [("m:es", .obj [])]).Distinct := by simp [Value.Distinct]
  have hw : (write (.obj [("m:es", .obj [])]) ⟨["m", "t"]⟩ (.str "a") .empty).2 = .ok () := by cbv
  rcases hwrite : write (.obj [("m:es", .obj [])]) ⟨["m", "t"]⟩ (.str "a") .empty with ⟨left, outcome⟩
  rw [hwrite] at hw
  obtain rfl : outcome = .ok () := hw
  exact ⟨left, rfl, (write_after_write hd (by decide) hwrite).2.1 (by decide)⟩

/-- The first write creates a mapping under the expression key `.a`, the second does not enter it. -/
theorem second_write_refused :
    write (.obj []) ⟨[".a", "b"]⟩ (.str "x") .empty =
        (.obj [(".a", .obj [("b", .str "x")])], .ok ()) ∧
      write (.obj [(".a", .obj [("b", .str "x")])]) ⟨[".a", "b"]⟩ (.str "y") .empty =
        (.obj [(".a", .obj [("b", .str "x")])], .error (.notContainer ⟨[".a"]⟩)) := by
  constructor <;> cbv

end LiveDoc
