import LiveDoc.Evaluation.Plan
import LiveDoc.Proofs.Spelling

/-! # Places

A change of a document is reached through slots of mappings and items of arrays. A walk that keeps off
these places finds the same before and after the change.
-/

namespace LiveDoc

/-- A step on the way to a change: a slot of a mapping, an item of an array, or all items from an
index on. -/
inductive Place where
  | slot (name : String)
  | item (index : Nat)
  | itemsFrom (index : Nat)
  deriving DecidableEq, Repr

namespace Place

/-- Whether a name leads to the place, however an index is spelled. -/
def Covers : Place → String → Prop
  | .slot name, s => s = name
  | .item i, s => Numeral.index? s = some i
  | .itemsFrom i, s => ∃ j ∈ Numeral.index? s, i ≤ j

instance (p : Place) (s : String) : Decidable (p.Covers s) :=
  match p with
  | .slot name => inferInstanceAs (Decidable (s = name))
  | .item i => inferInstanceAs (Decidable (Numeral.index? s = some i))
  | .itemsFrom i => inferInstanceAs (Decidable (∃ j ∈ Numeral.index? s, i ≤ j))

/-- The place that a segment leads to in a value. -/
def ofStep (current : Value) (segment : String) : Place :=
  match current, Numeral.index? segment with
  | .arr _, some i => .item i
  | _, _ => .slot (slotName segment)

theorem ofStep_obj (members : Members) (segment : String) :
    ofStep (.obj members) segment = .slot (slotName segment) :=
  rfl

theorem ofStep_arr {segment : String} {i : Nat} (h : Numeral.index? segment = some i)
    (items : List Value) : ofStep (.arr items) segment = .item i := by
  simp only [ofStep, h]

/-- One of the two leads to or through the other. -/
def Meets : List Place → List String → Prop
  | p :: places, s :: slots => p.Covers s ∧ Meets places slots
  | _, _ => True

def decideMeets : (places : List Place) → (slots : List String) → Decidable (Meets places slots)
  | p :: places, s :: slots =>
    have := decideMeets places slots
    inferInstanceAs (Decidable (p.Covers s ∧ Meets places slots))
  | [], _ => isTrue trivial
  | _ :: _, [] => isTrue trivial

instance (places : List Place) (slots : List String) : Decidable (Meets places slots) :=
  decideMeets places slots

@[simp] theorem meets_nil (slots : List String) : Meets [] slots := by
  cases slots <;> trivial

/-- Slots of mappings meet what leads to or through them. -/
theorem meets_slots_iff {slots read : List String} :
    Meets (slots.map .slot) read ↔ read <+: slots ∨ slots <+: read := by
  induction slots generalizing read with
  | nil => simp
  | cons s slots ih =>
    cases read with
    | nil => simp [Meets]
    | cons r read =>
      rw [List.map_cons, Meets, Covers, ih, List.cons_prefix_cons, List.cons_prefix_cons,
        @eq_comm _ s r, and_or_left]

end Place

theorem Numeral.isDigit_of_nat? {ds : List Char} {n : Nat} (h : nat? ds = some n) :
    ∀ c ∈ ds, c.isDigit = true := by
  unfold nat? at h
  split at h
  · next hd =>
    simp only [Bool.and_eq_true, List.all_eq_true] at hd
    exact hd.2
  · cases h

theorem Numeral.chars_of_index? {s : String} {i : Nat} (h : index? s = some i) :
    ∀ c ∈ s.toList, c = '+' ∨ c.isDigit = true := by
  unfold index? at h
  obtain ⟨hn, -⟩ := Option.filter_eq_some_iff.1 h
  have hd := isDigit_of_nat? hn
  intro c hc
  split at hd
  · next rest hs =>
    rw [hs] at hc
    rcases List.mem_cons.1 hc with rfl | hc
    · exact .inl rfl
    · exact .inr (hd c hc)
  · exact .inr (hd c hc)

theorem isExact_of_not_mem {s : String} (hcolon : ':' ∉ s.toList) (hmarker : marker ∉ s.toList) :
    isExact s = false := by
  simp only [isExact, Bool.or_eq_false_iff, List.contains_eq_mem, decide_eq_false_iff_not]
  exact ⟨hcolon, isMarked_eq_false_of_not_mem hmarker⟩

/-- An index has neither a marker nor tags. -/
theorem isExact_of_index? {s : String} {i : Nat} (h : Numeral.index? s = some i) :
    isExact s = false := by
  have hne {c : Char} (hp : c ≠ '+') (hd : c.isDigit = false) : c ∉ s.toList := by
    intro hm
    rcases Numeral.chars_of_index? h c hm with h | h
    · exact hp h
    · rw [hd] at h
      cases h
  exact isExact_of_not_mem (hne (by decide) (by decide)) (hne (by decide) (by decide))

theorem slotName_of_index? {s : String} {i : Nat} (h : Numeral.index? s = some i) :
    slotName s = s :=
  slotName_of_bare (isExact_of_index? h)

theorem Place.covers_item {s : String} {i : Nat} (h : Numeral.index? s = some i) :
    (Place.item i).Covers (slotName s) := by
  rwa [slotName_of_index? h]

theorem Place.covers_itemsFrom {s : String} {i j : Nat} (h : Numeral.index? s = some j)
    (hle : i ≤ j) : (Place.itemsFrom i).Covers (slotName s) :=
  ⟨j, by rwa [slotName_of_index? h], hle⟩

/-! ## Walks that keep off places -/

/-- A change at the places may alter the context that the mapping around them declares. -/
def Declares : List Place → Prop
  | [.slot name] | [.slot name, .slot _] => name = contextKey
  | _ => False

/-- Neither the slots nor the contexts on their way are met by a change at the places. -/
def Avoids : List Place → List String → Prop
  | p :: places, s :: slots => ¬ Declares (p :: places) ∧ (p.Covers s → Avoids places slots)
  | _, _ => False

theorem Avoids.not_declares {places : List Place} {slots : List String} (h : Avoids places slots) :
    ¬ Declares places := by
  cases places with
  | nil => exact h.elim
  | cons p places =>
    cases slots with
    | nil => exact h.elim
    | cons s slots => exact h.1

theorem not_avoids_nil {slots : List String} : ¬ Avoids [] slots := by
  cases slots <;> exact id

theorem Avoids.not_meets {places : List Place} {slots : List String} (h : Avoids places slots) :
    ¬ Place.Meets places slots := by
  induction places generalizing slots with
  | nil => exact (not_avoids_nil h).elim
  | cons p places ih =>
    cases slots with
    | nil => exact h.elim
    | cons s slots => exact fun hm => ih (h.2 hm.1) hm.2

theorem exists_slot_of_declares {places : List Place} (h : Declares places) :
    ∃ rest, places = .slot contextKey :: rest := by
  unfold Declares at h
  split at h
  · exact ⟨_, by rw [h]⟩
  · exact ⟨_, by rw [h]⟩
  · exact h.elim

theorem avoids_of_not_meets {places : List Place} {slots : List String}
    (h : ¬ Place.Meets places slots)
    (hc : ∀ n < slots.length, ¬ Place.Meets places (slots.take n ++ [contextKey])) :
    Avoids places slots := by
  induction places generalizing slots with
  | nil => exact h trivial
  | cons p places ih =>
    cases slots with
    | nil => exact h trivial
    | cons s slots =>
      refine ⟨fun hd => ?_, fun hs => ih (fun hm => h ⟨hs, hm⟩) fun n hn hm => ?_⟩
      · obtain ⟨rest, he⟩ := exists_slot_of_declares hd
        cases he
        exact hc 0 (Nat.zero_lt_succ _) ⟨rfl, by cases places <;> trivial⟩
      · exact hc (n + 1) (Nat.succ_lt_succ hn) ⟨hs, hm⟩

/-- A read whose slots do not meet the places keeps off them. -/
theorem avoids_of_walkReads {places : List Place} {path : Path}
    (h : ∀ slot ∈ walkReads path, ¬ Place.Meets places slot.segments) :
    Avoids places path.logical.segments :=
  avoids_of_not_meets (h path.logical (List.mem_append_right _ List.mem_cons_self)) fun n hn =>
    h ((path.logical.take n).child contextKey)
      (List.mem_append_left _ (List.mem_map_of_mem (List.mem_range.2 hn)))

/-- Slots on the way to no context meet what a walk reads only if one of the two, the slots or the path
of the walk, leads to or through the other. -/
theorem not_meets_walkReads {slots : List String} {path : Path} (hc : contextKey ∉ slots)
    (hr : ¬ (slots <+: path.logical.segments ∨ path.logical.segments <+: slots)) :
    ∀ slot ∈ walkReads path, ¬ Place.Meets (slots.map .slot) slot.segments := by
  intro slot hs hm
  rw [Place.meets_slots_iff] at hm
  rcases List.mem_append.1 hs with hs | hs
  · obtain ⟨n, -, rfl⟩ := List.mem_map.1 hs
    have hlast : contextKey ∈ ((path.logical.take n).child contextKey).segments :=
      List.mem_append_right _ List.mem_cons_self
    rcases hm with hm | hm
    · exact hc (hm.subset hlast)
    · rcases List.prefix_concat_iff.1 hm with he | hm
      · exact hc (he ▸ hlast)
      · exact hr (.inl (hm.trans (List.take_prefix n _)))
  · obtain rfl := List.mem_singleton.1 hs
    exact hr hm.symm

end LiveDoc
