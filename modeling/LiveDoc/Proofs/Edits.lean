import LiveDoc.Document.Remove
import LiveDoc.Proofs.Descent
import LiveDoc.Proofs.Places
import LiveDoc.Proofs.Relocation
import LiveDoc.Proofs.Spelling

/-! # What a write leaves

A write or a removal fills or empties one slot of a mapping, and the mappings that a write creates form
a chain. Neither brings arrays into a document.
-/

namespace LiveDoc

/-- Two mappings are the same but for the keys of one slot. -/
structure SameBeside (slot : String) (members members' : Members) : Prop where
  keys : ∀ name ≠ slot, (members'.map (·.1)).filter (slotName · == name) =
    (members.map (·.1)).filter (slotName · == name)
  values : ∀ key, slotName key ≠ slot → members'.lookup key = members.lookup key

namespace SameBeside

variable {slot : String} {members members' : Members}

theorem refl (slot : String) (members : Members) : SameBeside slot members members :=
  ⟨fun _ _ => rfl, fun _ _ => rfl⟩

theorem put {key : String} (value : Value) (h : SameBeside (slotName key) members members') :
    SameBeside (slotName key) members (Assoc.put key value members') where
  keys name hn := by
    rw [Assoc.filter_keys_put (by simpa using Ne.symm hn), h.keys name hn]
  values k hk := by
    rw [Assoc.lookup_put, if_neg (by rintro rfl; exact hk rfl), h.values k hk]

theorem erase {key : String} (h : SameBeside (slotName key) members members') :
    SameBeside (slotName key) members (Assoc.erase key members') where
  keys name hn := by
    rw [Assoc.filter_keys_erase (by simpa using Ne.symm hn), h.keys name hn]
  values k hk := by
    rw [Assoc.lookup_erase_of_ne (by rintro rfl; exact hk rfl), h.values k hk]

theorem enter? (h : SameBeside slot members members') {segment : String}
    (hs : slotName segment ≠ slot) (context : Context) :
    enter? (.obj members') segment context = enter? (.obj members) segment context := by
  refine Option.ext fun ⟨key, value⟩ => ?_
  rw [enter?_obj, enter?_obj, selectKey_congr (h.keys _ hs)]
  refine and_congr_right fun hk => ?_
  rw [h.values key (by rw [(selectKey_eq_some hk).2]; exact hs)]

theorem own (h : SameBeside slot members members') (hs : slot ≠ contextKey) :
    Context.own (.obj members') = Context.own (.obj members) := by
  have hc : slotName contextKey ≠ slot := by
    rw [show slotName contextKey = contextKey by decide]
    exact Ne.symm hs
  simp only [Context.own, Context.ofMembers, h.values contextKey hc]

end SameBeside

/-- Mappings within one another, each with a single key, that lead along slots. -/
inductive Chain : List String → Value → Prop where
  | last (key : String) (value : Value) : Chain [slotName key] (.obj [(key, value)])
  | more (key : String) {slots : List String} {value : Value} (rest : Chain slots value) :
    Chain (slotName key :: slots) (.obj [(key, value)])

theorem Chain.obj {slots : List String} {value : Value} (h : Chain slots value) :
    ∃ members, value = .obj members := by
  cases h <;> exact ⟨_, rfl⟩

theorem isExpression_obj (key : String) (members : Members) :
    isExpression key (.obj members) = false := by
  simp [isExpression, Value.string?]

theorem enter?_single {key segment : String} {value : Value} {context : Context}
    {found : String × Value} (h : enter? (.obj [(key, value)]) segment context = some found) :
    found = (key, value) ∧ slotName segment = slotName key := by
  obtain ⟨key', value'⟩ := found
  obtain ⟨hs, hl⟩ := enter?_obj.1 h
  have hk := List.mem_singleton.1 (Assoc.mem_of_lookup hl)
  obtain ⟨rfl, rfl⟩ := Prod.mk.inj hk
  exact ⟨rfl, (selectKey_eq_some hs).2.symm⟩

/-- Off the chain there is nothing. -/
theorem Chain.walk_eq_missing {slots : List String} {value : Value} (h : Chain slots value)
    {segments : List String} (ha : ¬ Place.Meets (slots.map .slot) (segments.map slotName))
    (path : Path) (context : Context) : walk value path context segments = .missing := by
  induction h generalizing segments path context with
  | last key value =>
    cases segments with
    | nil => exact absurd trivial ha
    | cons segment rest =>
      cases he : enter? (.obj [(key, value)]) segment context with
      | none => simp [walk, he]
      | some found => exact absurd ⟨(enter?_single he).2, Place.meets_nil _⟩ ha
  | @more key slots value rest ih =>
    cases segments with
    | nil => exact absurd trivial ha
    | cons segment segments =>
      cases he : enter? (.obj [(key, value)]) segment context with
      | none => simp [walk, he]
      | some found =>
        obtain ⟨rfl, hslot⟩ := enter?_single he
        obtain ⟨members, rfl⟩ := rest.obj
        rw [walk_cons_static he (isExpression_obj _ _)]
        exact ih (fun hm => ha ⟨hslot, hm⟩) _ _

theorem Chain.descend?_eq_none {slots : List String} {value : Value} (h : Chain slots value)
    {keys : List String} (ha : ¬ Place.Meets (slots.map .slot) (keys.map slotName)) :
    value.descend? keys = none := by
  induction h generalizing keys with
  | last key value =>
    cases keys with
    | nil => exact absurd trivial ha
    | cons k rest =>
      have hk : k ≠ key := by
        rintro rfl
        exact ha ⟨rfl, Place.meets_nil _⟩
      simp [Value.descend?, Value.child?, List.lookup_cons, beq_eq_false_iff_ne.2 hk]
  | more key rest ih =>
    cases keys with
    | nil => exact absurd trivial ha
    | cons k keys =>
      by_cases hk : k = key
      · subst hk
        simp [Value.descend?, Value.child?, ih fun hm => ha ⟨rfl, hm⟩]
      · simp [Value.descend?, Value.child?, List.lookup_cons, beq_eq_false_iff_ne.2 hk]

theorem walk_congr {current current' : Value} {segment segment' : String} {context : Context}
    (h : enter? current' segment' context = enter? current segment context) (path : Path)
    (rest : List String) :
    walk current' path context (segment' :: rest) = walk current path context (segment :: rest) := by
  simp only [walk, h]

theorem selectKey_put {members : Members} {key : String} {child : Value}
    (h : members.lookup key = some child) (child' : Value) (segment : String) (context : Context) :
    selectKey (Assoc.put key child' members) segment context = selectKey members segment context := by
  refine selectKey_congr ?_
  have hk : key ∈ members.map (·.1) := Assoc.isSome_lookup_iff.1 (by rw [h]; rfl)
  rw [Assoc.keys_put, if_pos hk]

/-! ## Writes and removals -/

/-- No array lies in a value. -/
inductive Value.Flat : Value → Prop where
  | null : Flat .null
  | bool (b : Bool) : Flat (.bool b)
  | num (n : Number) : Flat (.num n)
  | str (s : String) : Flat (.str s)
  | obj {members : Members} (parts : ∀ e ∈ members, Flat e.2) : Flat (.obj members)

namespace Value.Flat

variable {members : Members} {key : String}

theorem of_lookup (h : (Value.obj members).Flat) {child : Value}
    (hl : members.lookup key = some child) : child.Flat := by
  cases h with
  | obj parts => exact parts _ (Assoc.mem_of_lookup hl)

theorem put (h : (Value.obj members).Flat) (key : String) {value : Value} (hv : value.Flat) :
    (Value.obj (Assoc.put key value members)).Flat := by
  cases h with
  | obj parts =>
    refine .obj fun e he => ?_
    rcases Assoc.mem_of_mem_put he with rfl | he
    · exact hv
    · exact parts e he

theorem erase (h : (Value.obj members).Flat) (key : String) :
    (Value.obj (Assoc.erase key members)).Flat := by
  cases h with
  | obj parts => exact .obj fun e he => parts e (Assoc.mem_of_mem_erase he)

end Value.Flat

/-- A write of a flat value leaves a flat value flat. -/
theorem flat_writeFrom {value current : Value} (hv : value.Flat) (hc : current.Flat) (path : Path)
    (context : Context) (segments : List String) :
    (writeFrom value path context current segments).1.Flat := by
  induction segments generalizing path context current with
  | nil => exact hc
  | cons segment rest ih =>
    cases rest with
    | nil =>
      cases hc with
      | obj parts => exact ((Value.Flat.obj parts).erase _).put segment hv
      | null => exact .null
      | bool b => exact .bool b
      | num n => exact .num n
      | str s => exact .str s
    | cons next rest =>
      cases hd : descent path context current segment with
      | error e => simpa only [writeFrom, hd] using hc
      | ok d =>
        simp only [writeFrom, hd]
        cases descent_eq_ok.1 hd with
        | member _ _ hl => exact hc.put _ (ih (hc.of_lookup hl) _ _)
        | created => exact hc.put _ (ih (.obj fun _ h => absurd h List.not_mem_nil) _ _)
        | item => nomatch hc

theorem flat_removeFrom? {current left : Value} {segments : List String} (hc : current.Flat)
    (h : removeFrom? current segments = some left) : left.Flat := by
  induction segments generalizing current left with
  | nil => cases h
  | cons segment rest ih =>
    cases hc with
    | obj parts =>
      have hc : (Value.obj _).Flat := .obj parts
      cases rest with
      | nil =>
        obtain ⟨members', he, rfl⟩ := Option.map_eq_some_iff.1 h
        simp only [emptySlot?, Option.ite_none_right_eq_some, Option.some.injEq] at he
        rw [← he.2]
        exact (hc.erase _).erase _
      | cons next rest =>
        obtain ⟨child, hl, h⟩ := Option.bind_eq_some_iff.1 h
        obtain ⟨below, hb, rfl⟩ := Option.map_eq_some_iff.1 h
        exact hc.put _ (ih (hc.of_lookup hl) hb)
    | _ => cases rest <;> simp [removeFrom?] at h

theorem sameBeside_fillSlot {segment : String} (h : Spelled segment) (members : Members)
    (value : Value) : SameBeside (slotName segment) members (fillSlot members segment value) := by
  refine SameBeside.put value ?_
  rw [← slotName_counterpart h]
  exact (SameBeside.refl _ _).erase

/-- A write that goes through creates a chain in a new mapping. -/
theorem writeFrom_obj_nil {value left : Value} {segments : List String} {path : Path}
    {context : Context} (h : writeFrom value path context (.obj []) segments = (left, .ok ())) :
    Chain (segments.map slotName) left := by
  induction segments generalizing path context left with
  | nil => simp [writeFrom] at h
  | cons segment rest ih =>
    cases rest with
    | nil =>
      simp only [writeFrom, writeLast, fillSlot, Assoc.erase, Assoc.put, Prod.mk.injEq] at h
      rw [← h.1]
      exact .last segment value
    | cons next rest =>
      cases hd : descent path context (.obj []) segment with
      | error e => simp [writeFrom, hd] at h
      | ok d =>
        cases descent_eq_ok.1 hd with
        | member hs => simp at hs
        | created hs hr =>
          rcases hb : writeFrom value (path.child segment)
            (context.merge (Context.own (.obj [])) : Context) (.obj []) (next :: rest)
            with ⟨below, outcome⟩
          simp only [writeFrom, hd, hb, Prod.mk.injEq] at h
          obtain ⟨rfl, rfl⟩ := h
          exact .more segment (ih hb)

theorem sameBeside_emptySlot {segment : String} (h : Spelled segment) {members left : Members}
    (he : emptySlot? members segment = some left) : SameBeside (slotName segment) members left := by
  simp only [emptySlot?, Option.ite_none_right_eq_some] at he
  obtain ⟨-, he⟩ := he
  cases he
  rw [← slotName_counterpart h]
  refine SameBeside.erase ?_
  rw [slotName_counterpart h]
  exact (SameBeside.refl _ _).erase

end LiveDoc
