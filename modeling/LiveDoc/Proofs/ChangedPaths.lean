import LiveDoc.Proofs.Changes

/-! # Where a write changes a document

A write changes what its path names, unless it creates a mapping under a key that a segment names
exactly: the new key may win the whole slot from another one. A removal from an array changes all items
from its own on.
-/

namespace LiveDoc

/-- Whether a segment before the last names nothing in a mapping, so that a write creates a key. -/
def creates (context : Context) : Value → String → Bool
  | .obj members, segment => (selectKey members segment context).isNone
  | _, _ => false

/-- The places that a write below a value changes. A key that it creates for a segment that names it
exactly may win the slot from another one, so the whole slot changes. -/
def changedPlaces (context : Context) (current : Value) : List String → List Place
  | [] => []
  | [segment] => [.ofStep current segment]
  | segment :: next :: rest =>
    .ofStep current segment ::
      if creates context current segment then
        if isExact segment then [] else ((next :: rest).map slotName).map .slot
      else
        match descent .root context current segment with
        | .ok d => changedPlaces d.context d.child (next :: rest)
        | .error _ => []

/-- A write below a value enters what some segments lead to, and there it creates a key for the next
segment, which names it exactly. -/
def Opens (context : Context) (current : Value) : List String → String → Prop
  | [], segment => creates context current segment = true ∧ isExact segment = true
  | key :: front, segment => creates context current key = false ∧
      ∃ d, Enters context current key d ∧ Opens d.context d.child front segment

/-- The places on the way to what keys lead to. -/
def Value.places (current : Value) : List String → List Place
  | [] => []
  | key :: rest =>
    .ofStep current key ::
      match current.child? key with
      | some child => child.places rest
      | none => []

/-- What a write puts in place of its last segment changes one slot or one item. -/
theorem writeLast_changed {value current left : Value} {path : Path} {segment : String}
    (h : writeLast value path current segment = .ok left) (hs : Spelled segment) :
    Changed [.ofStep current segment] current left := by
  cases current with
  | obj members =>
    cases h
    exact .slot (sameBeside_fillSlot hs members value)
  | arr items =>
    simp only [writeLast, bind, Except.bind] at h
    cases hi : indexAt path segment with
    | error e => simp [hi] at h
    | ok i =>
      simp only [hi] at h
      rw [Place.ofStep_arr (indexAt_eq_ok.1 hi)]
      split at h
      · cases h
        exact .oneItem fun j hj => List.getElem?_set_ne (Ne.symm hj)
      · split at h
        · next hl =>
          cases h
          exact .oneItem fun j hj => getElem?_append_singleton_of_ne (hl ▸ hj)
        · cases h
  | _ => cases h

/-- A write that goes through changes its places. -/
theorem writeFrom_changed {value current left : Value} {segments : List String} {path : Path}
    {context : Context} (h : writeFrom value path context current segments = (left, .ok ()))
    (hlast : ∀ segment, segments.getLast? = some segment → Spelled segment) :
    Changed (changedPlaces context current segments) current left := by
  induction segments generalizing path context current left with
  | nil => simp [writeFrom] at h
  | cons segment rest ih =>
    cases rest with
    | nil =>
      cases hw : writeLast value path current segment with
      | error e => simp [writeFrom, hw] at h
      | ok written =>
        simp only [writeFrom, hw, Prod.mk.injEq, and_true] at h
        subst h
        exact writeLast_changed hw (hlast segment rfl)
    | cons next rest =>
      cases hd : descent path context current segment with
      | error e => simp [writeFrom, hd] at h
      | ok d =>
        rcases hb : writeFrom value (path.child segment) d.context d.child (next :: rest)
          with ⟨below, outcome⟩
        simp only [writeFrom, hd, hb, Prod.mk.injEq] at h
        obtain ⟨rfl, rfl⟩ := h
        have hlast' : ∀ s, (next :: rest).getLast? = some s → Spelled s := fun s hs =>
          hlast s (by rwa [List.getLast?_cons_cons])
        have hd' : descent .root context current segment = .ok d :=
          descent_eq_ok.2 (descent_eq_ok.1 hd)
        simp only [changedPlaces, hd']
        cases descent_eq_ok.1 hd with
        | @member members _ key child hs hm hl =>
          have hc : creates context (.obj members) segment = false := by simp [creates, hs]
          rw [hc, if_neg Bool.false_ne_true, Place.ofStep_obj, ← (selectKey_eq_some hs).2]
          exact .member hl (ih hb hlast')
        | @created members _ hs hr =>
          have hc : creates context (.obj members) segment = true := by simp [creates, hs]
          rw [hc, if_pos rfl, Place.ofStep_obj]
          cases he : isExact segment with
          | true => exact .slot ((SameBeside.refl _ members).put below)
          | false =>
            rw [if_neg Bool.false_ne_true]
            exact .created he hs (writeFrom_obj_nil hb)
        | @item items _ i child hi hc =>
          have hc' : creates context (.arr items) segment = false := rfl
          rw [hc', if_neg Bool.false_ne_true, Place.ofStep_arr hi]
          exact .item hc (ih hb hlast')

/-! ## Documents without arrays -/

theorem Enters.flat {context : Context} {current : Value} {segment : String} {d : Descent}
    (h : Enters context current segment d) (hf : current.Flat) :
    (∃ members, current = .obj members) ∧ d.child.Flat := by
  cases h with
  | member _ _ hl => exact ⟨⟨_, rfl⟩, hf.of_lookup hl⟩
  | created => exact ⟨⟨_, rfl⟩, .obj fun _ he => absurd he List.not_mem_nil⟩
  | item => nomatch hf

theorem changedPlaces_of_enters {context : Context} {current : Value} {segment : String}
    {d : Descent} {rest : List String} (h : Enters context current segment d)
    (hc : creates context current segment = false) (hne : rest ≠ []) :
    changedPlaces context current (segment :: rest) =
      .ofStep current segment :: changedPlaces d.context d.child rest := by
  obtain ⟨next, rest, rfl⟩ := List.exists_cons_of_ne_nil hne
  rw [changedPlaces, hc, if_neg Bool.false_ne_true, descent_eq_ok.2 h]

/-- A write that opens a new key changes the whole slot of the key. -/
theorem changedPlaces_of_opens {context : Context} {current : Value} {front : List String}
    {segment : String} (hf : current.Flat) (h : Opens context current front segment)
    {rest : List String} (hne : rest ≠ []) :
    changedPlaces context current (front ++ segment :: rest) =
      ((front ++ [segment]).map slotName).map .slot := by
  induction front generalizing context current with
  | nil =>
    obtain ⟨hc, he⟩ := h
    obtain ⟨next, rest, rfl⟩ := List.exists_cons_of_ne_nil hne
    cases current with
    | obj members => simp only [List.nil_append, changedPlaces, hc, he, if_true, Place.ofStep_obj,
        List.map_cons, List.map_nil]
    | _ => cases hc
  | cons key front ih =>
    obtain ⟨hc, d, hd, hbelow⟩ := h
    obtain ⟨⟨members, rfl⟩, hf'⟩ := hd.flat hf
    rw [List.cons_append, changedPlaces_of_enters hd hc (by simp), ih hf' hbelow]
    rfl

/-- A write that opens no key changes the slot of its path. -/
theorem changedPlaces_of_not_opens {value current left : Value} {segments : List String}
    {path : Path} {context : Context}
    (h : writeFrom value path context current segments = (left, .ok ())) (hf : current.Flat)
    (hn : ∀ front segment rest, segments = front ++ segment :: rest → rest ≠ [] →
      ¬ Opens context current front segment) :
    changedPlaces context current segments = (segments.map slotName).map .slot := by
  induction segments generalizing path context current left with
  | nil => simp [writeFrom] at h
  | cons segment rest ih =>
    cases rest with
    | nil =>
      cases hf with
      | obj parts => rfl
      | _ => simp [writeFrom, writeLast] at h
    | cons next rest =>
      cases hd : descent path context current segment with
      | error e => simp [writeFrom, hd] at h
      | ok d =>
        rcases hb : writeFrom value (path.child segment) d.context d.child (next :: rest)
          with ⟨below, outcome⟩
        simp only [writeFrom, hd, hb, Prod.mk.injEq] at h
        obtain ⟨rfl, rfl⟩ := h
        have hent := descent_eq_ok.1 hd
        obtain ⟨⟨members, rfl⟩, hf'⟩ := hent.flat hf
        cases hc : creates context (.obj members) segment with
        | true =>
          have he : isExact segment = false := Bool.eq_false_iff.2 fun he =>
            hn [] segment (next :: rest) rfl (List.cons_ne_nil _ _) ⟨hc, he⟩
          rw [changedPlaces, hc, if_pos rfl, he, if_neg Bool.false_ne_true]
          rfl
        | false =>
          rw [changedPlaces_of_enters hent hc (List.cons_ne_nil _ _), ih hb hf' ?_]
          · rfl
          · intro front s more he hne ho
            exact hn (segment :: front) s more (by rw [he]; rfl) hne ⟨hc, d, hent, ho⟩

theorem Opens.exact {context : Context} {current : Value} {front : List String} {segment : String}
    (h : Opens context current front segment) : isExact segment = true := by
  induction front generalizing context current with
  | nil => exact h.2
  | cons key front ih =>
    obtain ⟨-, d, -, hbelow⟩ := h
    exact ih hbelow

/-- A write whose segments before the last are bare changes the slot of its path. -/
theorem writeFrom_changed_slot {value current left : Value} {segments : List String} {path : Path}
    {context : Context} (h : writeFrom value path context current segments = (left, .ok ()))
    (hf : current.Flat) (hbare : ∀ segment ∈ segments.dropLast, isExact segment = false)
    (hlast : ∀ segment, segments.getLast? = some segment → Spelled segment) :
    Changed ((segments.map slotName).map .slot) current left := by
  rw [← changedPlaces_of_not_opens h hf fun front segment rest he hne ho => ?_]
  · exact writeFrom_changed h hlast
  · have hmem : segment ∈ segments.dropLast := by
      rw [he, List.dropLast_append_of_ne_nil (List.cons_ne_nil _ _), List.dropLast_cons_of_ne_nil hne]
      exact List.mem_append_right _ List.mem_cons_self
    exact absurd ho.exact (Bool.eq_false_iff.1 (hbare segment hmem))

/-- A removal from a document without arrays changes the slot of its path. -/
theorem removeFrom?_changed_slot {current left : Value} {segments : List String}
    (h : removeFrom? current segments = some left) (hf : current.Flat)
    (hlast : ∀ segment, segments.getLast? = some segment → Spelled segment) :
    Changed ((segments.map slotName).map .slot) current left := by
  induction segments generalizing current left with
  | nil => simp [removeFrom?] at h
  | cons segment rest ih =>
    cases current with
    | arr items => cases hf
    | obj members =>
      cases rest with
      | nil =>
        obtain ⟨members', he, rfl⟩ := Option.map_eq_some_iff.1 h
        exact .slot (sameBeside_emptySlot (hlast segment rfl) he)
      | cons next rest =>
        obtain ⟨child, hl, h⟩ := Option.bind_eq_some_iff.1 h
        obtain ⟨below, hb, rfl⟩ := Option.map_eq_some_iff.1 h
        exact .member hl (ih hb (hf.of_lookup hl) fun s hs => hlast s (by
          rwa [List.getLast?_cons_cons]))
    | _ => cases rest <;> simp [removeFrom?] at h

/-! ## Removals from arrays -/

/-- A removal from an array changes the items from the removed one on. -/
theorem removeFrom?_changed_items {current left : Value} {front : List String} {segment : String}
    {i : Nat} {items : List Value} (h : removeFrom? current (front ++ [segment]) = some left)
    (harray : current.descend? front = some (.arr items)) (hi : Numeral.index? segment = some i) :
    Changed (current.places front ++ [.itemsFrom i]) current left := by
  induction front generalizing current left with
  | nil =>
    cases harray
    simp only [List.nil_append, removeFrom?, hi, Option.bind_some] at h
    split at h
    · cases h
      exact .laterItems fun j hj => List.getElem?_eraseIdx_of_lt hj
    · cases h
  | cons key rest ih =>
    obtain ⟨child, hchild, hbelow⟩ := Option.bind_eq_some_iff.1 harray
    obtain ⟨next, more, he⟩ := List.exists_cons_of_ne_nil (List.append_ne_nil_of_right_ne_nil rest
      (List.cons_ne_nil segment []))
    rw [List.cons_append, he] at h
    rw [Value.places, hchild]
    cases current with
    | obj members =>
      have hl : members.lookup key = some child := hchild
      simp only [removeFrom?, hl, Option.bind_some, Option.map_eq_some_iff] at h
      obtain ⟨below, hb, rfl⟩ := h
      exact .member hl (ih (he ▸ hb) hbelow)
    | arr elements =>
      obtain ⟨j, hj, hl⟩ := Option.bind_eq_some_iff.1 hchild
      simp only [removeFrom?, hj, Option.bind_some, hl, Option.map_eq_some_iff] at h
      obtain ⟨below, hb, rfl⟩ := h
      rw [Place.ofStep_arr hj]
      exact .item hl (ih (he ▸ hb) hbelow)
    | _ => cases hchild

end LiveDoc
