import LiveDoc.Proofs.Edits

/-! # Changes

A write or a removal changes a document at places, whatever mappings and arrays the way leads through.
Walks that keep off the places find the same under every context.
-/

namespace LiveDoc

/-- A value before and after a change at places. -/
inductive Changed : List Place → Value → Value → Prop where
  | slot {slot : String} {members members' : Members} (same : SameBeside slot members members') :
    Changed [.slot slot] (.obj members) (.obj members')
  | member {key : String} {places : List Place} {members : Members} {child child' : Value}
    (found : members.lookup key = some child) (below : Changed places child child') :
    Changed (.slot (slotName key) :: places) (.obj members) (.obj (Assoc.put key child' members))
  | created {context : Context} {segment : String} {slots : List String} {members : Members}
    {child' : Value} (bare : isExact segment = false)
    (selected : selectKey members segment context = none) (chain : Chain slots child') :
    Changed (.slot (slotName segment) :: slots.map .slot) (.obj members)
      (.obj (Assoc.put segment child' members))
  | item {i : Nat} {places : List Place} {items : List Value} {child child' : Value}
    (found : items[i]? = some child) (below : Changed places child child') :
    Changed (.item i :: places) (.arr items) (.arr (items.set i child'))
  | oneItem {i : Nat} {items items' : List Value} (same : ∀ j ≠ i, items'[j]? = items[j]?) :
    Changed [.item i] (.arr items) (.arr items')
  | laterItems {i : Nat} {items items' : List Value} (same : ∀ j < i, items'[j]? = items[j]?) :
    Changed [.itemsFrom i] (.arr items) (.arr items')

/-! ## Contexts -/

/-- An entry that a filter leaves out before and after is not seen through the filter. -/
theorem Assoc.filterMap_put {β : Type} {g : String × Value → Option β} {key : String} {value : Value}
    {members : Members} (hold : ∀ v, members.lookup key = some v → g (key, v) = none)
    (hnew : g (key, value) = none) : (put key value members).filterMap g = members.filterMap g := by
  induction members with
  | nil => simp [put, hnew]
  | cons e rest ih =>
    obtain ⟨k, v⟩ := e
    by_cases hk : k = key
    · subst hk
      have hv : g (k, v) = none := hold v List.lookup_cons_self
      rw [put, if_pos rfl, List.filterMap_cons_none hnew, List.filterMap_cons_none hv]
    · have hrest : (put key value rest).filterMap g = rest.filterMap g := by
        refine ih fun w hw => hold w ?_
        rw [List.lookup_cons, beq_eq_false_iff_ne.2 (Ne.symm hk), hw]
      rw [put, if_neg hk, List.filterMap_cons, List.filterMap_cons, hrest]

namespace Changed

variable {places : List Place} {value value' : Value}

/-- Only a container changes, and it stays one of its kind. -/
theorem container (h : Changed places value value') :
    (∃ members members', value = .obj members ∧ value' = .obj members') ∨
      ∃ items items', value = .arr items ∧ value' = .arr items' := by
  cases h with
  | slot | member | created => exact .inl ⟨_, _, rfl, rfl⟩
  | item | oneItem | laterItems => exact .inr ⟨_, _, rfl, rfl⟩

/-- What changes is no expression, and no entry of a context. -/
theorem static (h : Changed places value value') (key : String) :
    isExpression key value = false ∧ isExpression key value' = false ∧
      Context.entryText? value = none ∧ Context.entryText? value' = none := by
  rcases h.container with ⟨_, _, rfl, rfl⟩ | ⟨_, _, rfl, rfl⟩ <;>
    simp [isExpression, Value.string?, Context.entryText?]

/-- A change below the entries of a context leaves the context as it is. -/
theorem ofValue_eq (h : Changed places value value') (hp : ∀ name, places ≠ [.slot name]) :
    Context.ofValue value' = Context.ofValue value := by
  cases h with
  | slot => exact absurd rfl (hp _)
  | @member key places members child child' found below =>
    obtain ⟨-, -, hc, hc'⟩ := below.static key
    simp only [Context.ofValue]
    rw [Assoc.filterMap_put (fun v hv => ?_) (by simp [hc'])]
    obtain rfl : child = v := Option.some.inj (found.symm.trans hv)
    simp [hc]
  | @created context segment slots members child' bare selected chain =>
    obtain ⟨inner, rfl⟩ := chain.obj
    simp only [Context.ofValue]
    rw [Assoc.filterMap_put (fun v hv => ?_) (by simp [Context.entryText?])]
    rw [lookup_of_selectKey_eq_none selected] at hv
    cases hv
  | item | oneItem | laterItems => rfl

/-- A change that declares nothing leaves the context of the mapping around it. -/
theorem own_eq (h : Changed places value value') (hd : ¬ Declares places) :
    Context.own value' = Context.own value := by
  have hslot : slotName contextKey = contextKey := by decide
  cases h with
  | slot same => exact same.own hd
  | @member key places members child child' found below =>
    simp only [Context.own, Context.ofMembers, Assoc.lookup_put]
    by_cases hk : contextKey = key
    · subst hk
      have hp (name : String) : places ≠ [.slot name] := by
        rintro rfl
        exact hd hslot
      rw [if_pos rfl, found, Option.map_some, Option.map_some, below.ofValue_eq hp]
    · rw [if_neg hk]
  | @created context segment slots members child' bare selected chain =>
    simp only [Context.own, Context.ofMembers, Assoc.lookup_put]
    by_cases hk : contextKey = segment
    · subst hk
      rw [if_pos rfl, lookup_of_selectKey_eq_none selected]
      cases chain with
      | last key value => exact absurd hslot hd
      | more key rest =>
        obtain ⟨inner, rfl⟩ := rest.obj
        rfl
    · rw [if_neg hk]
  | item | oneItem | laterItems => rfl

end Changed

/-! ## Walks -/

/-- A created key is selected by its own name where no other key is, whatever the context. -/
theorem selectKey_put_created {members : Members} {segment : String} {context context' : Context}
    (hb : isExact segment = false) (hs : selectKey members segment context' = none) (value : Value) :
    selectKey (Assoc.put segment value members) segment context =
      (selectKey members segment context).or (some segment) := by
  have hk : segment ∉ members.map (·.1) :=
    Assoc.lookup_eq_none_iff.1 (lookup_of_selectKey_eq_none hs)
  simp only [selectKey, hb, Bool.false_eq_true, if_false] at hs ⊢
  rw [Assoc.keys_put, if_neg hk, resolveVariant_append hb hs]

theorem enter?_arr {items : List Value} {segment : String} {context : Context} :
    enter? (.arr items) segment context =
      ((Numeral.index? segment).bind (items[·]?)).map (segment, ·) :=
  rfl

theorem enter?_item {items : List Value} {segment : String} {i : Nat} {child : Value}
    (hi : Numeral.index? segment = some i) (hc : items[i]? = some child) (context : Context) :
    enter? (.arr items) segment context = some (segment, child) := by
  rw [enter?_arr, hi, Option.bind_some, hc, Option.map_some]

section Items

variable {items items' : List Value} {segment : String}
  (h : ∀ j, Numeral.index? segment = some j → items'[j]? = items[j]?)

include h

/-- Only the item at the index of a segment matters for the segment. -/
theorem child?_arr_congr : (Value.arr items').child? segment = (Value.arr items).child? segment := by
  simp only [Value.child?]
  cases hi : Numeral.index? segment with
  | none => rfl
  | some j => rw [Option.bind_some, Option.bind_some, h j hi]

theorem enter?_arr_congr (context : Context) :
    enter? (.arr items') segment context = enter? (.arr items) segment context :=
  congrArg (Option.map (segment, ·)) (child?_arr_congr h)

theorem descend?_arr_congr (rest : List String) :
    (Value.arr items').descend? (segment :: rest) = (Value.arr items).descend? (segment :: rest) :=
  congrArg (Option.bind · (Value.descend? · rest)) (child?_arr_congr h)

end Items

namespace Changed

variable {places : List Place} {value value' : Value}

/-- A walk that keeps off the places finds the same. -/
theorem walk_eq (h : Changed places value value') {segments : List String}
    (ha : Avoids places (segments.map slotName)) (path : Path) (context : Context) :
    walk value' path context segments = walk value path context segments := by
  induction h generalizing segments path context with
  | slot same =>
    cases segments with
    | nil => exact ha.elim
    | cons segment rest =>
      exact walk_congr (same.enter? (fun hs => not_avoids_nil (ha.2 hs)) _) path rest
  | @member key places members child child' found below ih =>
    cases segments with
    | nil => exact ha.elim
    | cons segment rest =>
      by_cases hslot : slotName segment = slotName key
      · have ha' : Avoids places (rest.map slotName) := ha.2 hslot
        have hsel := selectKey_put found child' segment context
        by_cases hk : selectKey members segment context = some key
        · have he : enter? (.obj members) segment context = some (key, child) :=
            enter?_obj.2 ⟨hk, found⟩
          have he' : enter? (.obj (Assoc.put key child' members)) segment context =
              some (key, child') :=
            enter?_obj.2 ⟨hsel.trans hk, by rw [Assoc.lookup_put, if_pos rfl]⟩
          rw [walk_cons_static he (below.static key).1, walk_cons_static he' (below.static key).2.1,
            below.own_eq ha'.not_declares, ih ha']
        · refine walk_congr (Option.ext fun ⟨k, v⟩ => ?_) path rest
          rw [enter?_obj, enter?_obj, hsel]
          refine and_congr_right fun hs => ?_
          rw [Assoc.lookup_put, if_neg (by rintro rfl; exact hk hs)]
      · exact walk_congr (((SameBeside.refl _ _).put child').enter? hslot _) path rest
  | @created context' segment' slots members child' bare selected chain =>
    cases segments with
    | nil => exact ha.elim
    | cons segment rest =>
      by_cases hslot : slotName segment = slotName segment'
      · have ha' : Avoids (slots.map .slot) (rest.map slotName) := ha.2 hslot
        by_cases hs : segment = segment'
        · subst hs
          have hsel : selectKey (Assoc.put segment child' members) segment context =
              (selectKey members segment context).or (some segment) :=
            selectKey_put_created bare selected child'
          cases hk : selectKey members segment context with
          | none =>
            have he : enter? (.obj members) segment context = none := enter?_obj_eq_none_iff.2 hk
            have he' : enter? (.obj (Assoc.put segment child' members)) segment context =
                some (segment, child') :=
              enter?_obj.2 ⟨by rw [hsel, hk, Option.none_or], by rw [Assoc.lookup_put, if_pos rfl]⟩
            obtain ⟨inner, rfl⟩ := chain.obj
            rw [walk_cons_static he' (isExpression_obj _ _),
              chain.walk_eq_missing ha'.not_meets]
            simp only [walk, he]
          | some key =>
            refine walk_congr (Option.ext fun ⟨k, v⟩ => ?_) path rest
            rw [enter?_obj, enter?_obj, hsel, hk, Option.some_or]
            refine and_congr_right fun hs => ?_
            rw [Assoc.lookup_put, if_neg (selectKey_ne selected (hk.trans hs))]
        · -- a segment for the same slot with another spelling names its key exactly
          have hex : isExact segment = true := by
            by_contra hne
            refine hs ?_
            rwa [slotName_of_bare (Bool.eq_false_iff.2 hne), slotName_of_bare bare] at hslot
          refine walk_congr ?_ path rest
          simp only [enter?, selectKey, hex, if_true, Assoc.lookup_put, if_neg hs]
          split
          · simp only [Option.bind_some, if_neg hs]
          · rfl
      · exact walk_congr (((SameBeside.refl _ _).put child').enter? hslot _) path rest
  | @item i places items child child' found below ih =>
    cases segments with
    | nil => exact ha.elim
    | cons segment rest =>
      obtain ⟨hlt, -⟩ := List.getElem?_eq_some_iff.1 found
      by_cases hi : Numeral.index? segment = some i
      · have ha' : Avoids places (rest.map slotName) := ha.2 (Place.covers_item hi)
        have hx := isExpression_of_not_marked (isExact_eq_false (isExact_of_index? hi)).2
        have he := enter?_item hi found context
        have he' := enter?_item hi (List.getElem?_set_self (a := child') hlt) context
        rw [walk_cons_static he (hx _), walk_cons_static he' (hx _),
          below.own_eq ha'.not_declares, ih ha']
      · refine walk_congr (enter?_arr_congr (fun j hj => ?_) context) path rest
        rw [List.getElem?_set_ne (by rintro rfl; exact hi hj)]
  | @oneItem i items items' same =>
    cases segments with
    | nil => exact ha.elim
    | cons segment rest =>
      refine walk_congr (enter?_arr_congr (fun j hj => same j ?_) context) path rest
      rintro rfl
      exact not_avoids_nil (ha.2 (Place.covers_item hj))
  | @laterItems i items items' same =>
    cases segments with
    | nil => exact ha.elim
    | cons segment rest =>
      refine walk_congr (enter?_arr_congr (fun j hj => same j ?_) context) path rest
      by_contra hle
      exact not_avoids_nil (ha.2 (Place.covers_itemsFrom hj (Nat.le_of_not_lt hle)))

/-- What lies off the places is the same. -/
theorem descend?_eq (h : Changed places value value') {keys : List String}
    (ha : ¬ Place.Meets places (keys.map slotName)) : value'.descend? keys = value.descend? keys := by
  induction h generalizing keys with
  | slot same =>
    cases keys with
    | nil => exact absurd trivial ha
    | cons key rest =>
      simp only [Value.descend?, Value.child?, same.values key fun hs => ha ⟨hs, Place.meets_nil _⟩]
  | @member key places members child child' found below ih =>
    cases keys with
    | nil => exact absurd trivial ha
    | cons k rest =>
      simp only [Value.descend?, Value.child?, Assoc.lookup_put]
      by_cases hk : k = key
      · subst hk
        simp only [if_true, found, Option.bind_some, ih fun hm => ha ⟨rfl, hm⟩]
      · rw [if_neg hk]
  | @created context segment slots members child' bare selected chain =>
    cases keys with
    | nil => exact absurd trivial ha
    | cons k rest =>
      simp only [Value.descend?, Value.child?, Assoc.lookup_put]
      by_cases hk : k = segment
      · subst hk
        rw [lookup_of_selectKey_eq_none selected]
        simp only [if_true, Option.bind_some, chain.descend?_eq_none fun hm => ha ⟨rfl, hm⟩,
          Option.bind_none]
      · rw [if_neg hk]
  | @item i places items child child' found below ih =>
    cases keys with
    | nil => exact absurd trivial ha
    | cons k rest =>
      obtain ⟨hlt, -⟩ := List.getElem?_eq_some_iff.1 found
      by_cases hi : Numeral.index? k = some i
      · have hm : ¬ Place.Meets places (rest.map slotName) := fun hm =>
          ha ⟨Place.covers_item hi, hm⟩
        simp only [Value.descend?, Value.child?, hi, Option.bind_some, List.getElem?_set_self hlt,
          found, ih hm]
      · refine descend?_arr_congr (fun j hj => ?_) rest
        rw [List.getElem?_set_ne (by rintro rfl; exact hi hj)]
  | @oneItem i items items' same =>
    cases keys with
    | nil => exact absurd trivial ha
    | cons k rest =>
      refine descend?_arr_congr (fun j hj => same j ?_) rest
      rintro rfl
      exact ha ⟨Place.covers_item hj, Place.meets_nil _⟩
  | @laterItems i items items' same =>
    cases keys with
    | nil => exact absurd trivial ha
    | cons k rest =>
      refine descend?_arr_congr (fun j hj => same j ?_) rest
      by_contra hle
      exact ha ⟨Place.covers_itemsFrom hj (Nat.le_of_not_lt hle), Place.meets_nil _⟩

/-- A path whose walk reads nothing at the places leads to the same. -/
theorem locate_eq (h : Changed places value value') {path : Path}
    (hr : ∀ slot ∈ walkReads path, ¬ Place.Meets places slot.segments) (context : Context) :
    locate value' path context = locate value path context := by
  have ha := avoids_of_walkReads hr
  rw [locate, locate, h.own_eq ha.not_declares]
  exact h.walk_eq ha _ _

theorem isObject_eq (h : Changed places value value') : value'.isObject = value.isObject := by
  rcases h.container with ⟨_, _, rfl, rfl⟩ | ⟨_, _, rfl, rfl⟩ <;> rfl

end Changed

end LiveDoc
