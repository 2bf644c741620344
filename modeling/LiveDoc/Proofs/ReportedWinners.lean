import LiveDoc.Document.Survey
import LiveDoc.Proofs.ReadBack
import LiveDoc.Proofs.Respelling

/-! # Reported winners and reads

A survey of the variant groups goes through every key of a document, a read picks one key at every
mapping. What a read of a group's path comes to is the winner that is reported exactly if a read picks
each key on the way by its own name and the name of the group carries no marker.
-/

namespace LiveDoc

variable {context inner : Context} {current child value : Value} {members owner : Members}
  {keys : List String} {key name : String} {path : Path} {g : VariantGroup}

/-! ## Mappings of a document -/

/-- A mapping lies below a value, at the end of the keys, and the context is in force in it. What a mapping
declares as its context is not among its keys. -/
inductive Encloses : Context → Value → List String → Members → Context → Prop where
  | here {context : Context} {members : Members} : Encloses context (.obj members) [] members context
  | member {context inner : Context} {members owner : Members} {key : String} {child : Value}
      {keys : List String} (found : members.lookup key = some child) (other : key ≠ contextKey)
      (below : Encloses (context.merge (Context.own child)) child keys owner inner) :
      Encloses context (.obj members) (key :: keys) owner inner
  | item {context inner : Context} {items : List Value} {owner : Members} {i : Nat} {child : Value}
      {keys : List String} (found : items[i]? = some child)
      (below : Encloses (context.merge (Context.own child)) child keys owner inner) :
      Encloses context (.arr items) (toString i :: keys) owner inner

theorem Encloses.string?_eq_none (h : Encloses context current keys owner inner) :
    current.string? = none := by
  cases h <;> rfl

/-- The group of a base name in a mapping, if one of its keys has tags. -/
def groupOf? (place : Path) (context : Context) (members : Members) (name : String) :
    Option VariantGroup :=
  let ranked := rankVariants name context (members.map (·.1))
  if ranked.any (!·.plain) then some ⟨place.child name, ranked, winner? ranked⟩ else none

theorem groupOf?_eq_some : groupOf? path context members name = some g ↔
    (rankVariants name context (members.map (·.1))).any (!·.plain) = true ∧
      g = ⟨path.child name, rankVariants name context (members.map (·.1)),
        resolveVariant name context (members.map (·.1))⟩ := by
  simp only [groupOf?, resolveVariant, Option.ite_none_right_eq_some, Option.some.injEq, @eq_comm _ g]

theorem mem_groupsOfMapping : g ∈ groupsOfMapping path context members ↔
    ∃ name ∈ baseNames members, groupOf? path context members name = some g :=
  List.mem_filterMap

theorem mem_groupsOfMembers : g ∈ groupsOfMembers path context members ↔
    ∃ key child, (key, child) ∈ members ∧ key ≠ contextKey ∧
      g ∈ groupsAt (path.child key) context child := by
  induction members with
  | nil => simp [groupsOfMembers]
  | cons e rest ih =>
    obtain ⟨k, v⟩ := e
    rw [groupsOfMembers, List.mem_append, ih]
    constructor
    · rintro (h | ⟨key, child, hm, hk, hg⟩)
      · split at h
        · cases h
        · next hk => exact ⟨k, v, List.mem_cons_self, hk, h⟩
      · exact ⟨key, child, List.mem_cons_of_mem _ hm, hk, hg⟩
    · rintro ⟨key, child, hm, hk, hg⟩
      rcases List.mem_cons.1 hm with he | hm
      · cases he
        exact .inl (by rwa [if_neg hk])
      · exact .inr ⟨key, child, hm, hk, hg⟩

theorem mem_groupsOfItems {items : List Value} {start : Nat} :
    g ∈ groupsOfItems path context start items ↔
      ∃ i child, items[i]? = some child ∧
        g ∈ groupsAt (path.child (toString (start + i))) context child := by
  induction items generalizing start with
  | nil => simp [groupsOfItems]
  | cons v rest ih =>
    rw [groupsOfItems, List.mem_append, ih]
    constructor
    · rintro (h | ⟨i, child, hi, hg⟩)
      · exact ⟨0, v, rfl, h⟩
      · exact ⟨i + 1, child, hi, by rwa [← Nat.add_assoc, Nat.add_right_comm]⟩
    · rintro ⟨_ | i, child, hi, hg⟩
      · cases hi
        exact .inl hg
      · exact .inr ⟨i, child, hi, by rwa [← Nat.add_assoc, Nat.add_right_comm] at hg⟩

theorem Path.append_nil (path : Path) : path.append [] = path := by
  rw [Path.append, List.append_nil]

theorem Path.child_append (path : Path) (key : String) (keys : List String) :
    (path.child key).append keys = path.append (key :: keys) := by
  simp only [Path.append, Path.child, List.append_assoc, List.singleton_append]

/-- The groups below a value are those of the mappings in it. -/
theorem mem_groupsAt_iff (hd : current.Distinct) : g ∈ groupsAt path context current ↔
    ∃ keys owner inner name, Encloses (context.merge (Context.own current)) current keys owner inner ∧
      name ∈ baseNames owner ∧ groupOf? (path.append keys) inner owner name = some g := by
  induction hd generalizing path context with
  | arr parts ih =>
    rw [groupsAt, mem_groupsOfItems]
    constructor
    · rintro ⟨i, child, hi, hg⟩
      obtain ⟨keys, owner, inner, name, he, hn, hg⟩ := (ih child (List.mem_of_getElem? hi)).1 hg
      rw [Nat.zero_add, Path.child_append] at hg
      exact ⟨_, owner, inner, name, .item hi he, hn, hg⟩
    · rintro ⟨_, owner, inner, name, he, hn, hg⟩
      cases he with
      | @item _ _ _ _ i child keys hi he =>
        rw [← Path.child_append, ← Nat.zero_add i] at hg
        exact ⟨i, child, hi, (ih child (List.mem_of_getElem? hi)).2 ⟨keys, owner, inner, name, he, hn, hg⟩⟩
  | @obj members hnodup parts ih =>
    rw [groupsAt, List.mem_append, mem_groupsOfMapping, mem_groupsOfMembers]
    constructor
    · rintro (⟨name, hn, hg⟩ | ⟨key, child, hm, hk, hg⟩)
      · rw [← Path.append_nil path] at hg
        exact ⟨[], members, _, name, .here, hn, hg⟩
      · obtain ⟨keys, owner, inner, name, he, hn, hg⟩ := (ih _ hm).1 hg
        rw [Path.child_append] at hg
        exact ⟨_, owner, inner, name, .member (Assoc.lookup_of_mem hnodup hm) hk he, hn, hg⟩
    · rintro ⟨_, owner, inner, name, he, hn, hg⟩
      cases he with
      | here =>
        rw [Path.append_nil] at hg
        exact .inl ⟨name, hn, hg⟩
      | @member _ _ _ _ key child keys hl hk he =>
        have hm := Assoc.mem_of_lookup hl
        rw [← Path.child_append] at hg
        exact .inr ⟨key, child, hm, hk, (ih _ hm).2 ⟨keys, owner, inner, name, he, hn, hg⟩⟩
  | _ => exact iff_of_false (by simp [groupsAt]) (by rintro ⟨_, _, _, _, ⟨⟩, -⟩)

/-- A group is reported exactly for a base name with tagged keys in a mapping of the document. -/
theorem mem_variantGroups_iff {document : Value} (hd : document.Distinct) :
    g ∈ variantGroups document context ↔
      ∃ keys owner inner name,
        Encloses (context.merge (Context.own document)) document keys owner inner ∧
        name ∈ baseNames owner ∧ groupOf? ⟨keys⟩ inner owner name = some g := by
  rw [variantGroups, mem_groupsAt_iff hd]
  simp only [Path.append, Path.root, List.nil_append]

/-! ## Base names -/

theorem slotName_eq (key : String) :
    slotName key = String.ofList ((unmark key).toList.takeWhile (· != ':')) := by
  have hsplit := Text.head?_split ':' (unmark key)
  rw [Text.split, List.head?_map, Text.head?_splitChars, Option.map_some, Option.some.injEq] at hsplit
  exact hsplit.symm

theorem colon_not_mem_slotName (key : String) : ':' ∉ (slotName key).toList := by
  rw [slotName_eq, String.toList_ofList]
  intro hm
  simpa using List.mem_takeWhile_imp hm

/-- A marked key belongs to the slot of another name. -/
theorem slotName_ne_of_marked (h : isMarked key = true) : slotName key ≠ key := by
  obtain ⟨plain, hplain⟩ := Option.isSome_iff_exists.1 h
  have hkey : key.toList = marker :: plain.toList := by
    rw [← mark_of_unmark? hplain, mark, String.toList_ofList]
  have hunmark : unmark key = plain := by rw [unmark, hplain, Option.getD_some]
  intro he
  have hlength := congrArg (fun s => s.toList.length) he
  rw [slotName_eq, hunmark, String.toList_ofList, hkey, List.length_cons] at hlength
  have := (List.takeWhile_sublist (· != ':') (l := plain.toList)).length_le
  omega

/-- A base name is exact only by its marker. -/
theorem isExact_of_mem_baseNames (h : name ∈ baseNames members) : isExact name = isMarked name := by
  obtain ⟨key, -, rfl⟩ := List.mem_map.1 (List.mem_eraseDups.1 h)
  rw [isExact, List.contains_eq_mem, decide_eq_false (colon_not_mem_slotName key), Bool.false_or]

/-- The winner of a base name is what the name selects, if it carries no marker. -/
theorem selectKey_baseName_iff (hn : name ∈ baseNames members)
    (hkey : resolveVariant name context (members.map (·.1)) = some key) :
    selectKey members name context = some key ↔ isMarked name = false := by
  rw [selectKey, isExact_of_mem_baseNames hn]
  cases hm : isMarked name with
  | false => simpa using hkey
  | true =>
    refine iff_of_false (fun h => ?_) (by decide)
    have hself : name = key := by
      rw [if_pos rfl] at h
      split at h
      · exact Option.some.inj h
      · cases h
    exact slotName_ne_of_marked hm (hself ▸ (resolveVariant_eq_some hkey).2.trans hself)

/-! ## The way of a read -/

/-- A read by the keys themselves enters each of them. -/
def Direct (context : Context) (current : Value) : List String → Prop
  | [] => True
  | key :: rest => ∃ child, enter? current key context = some (key, child) ∧
      Direct (context.merge (Context.own child)) child rest

theorem Numeral.eq_of_index?_toString {i j : Nat} (h : index? (toString i) = some j) : j = i := by
  rw [index?_toString_eq, Option.filter_eq_some_iff] at h
  exact (Option.some.inj h.1).symm

namespace Encloses

/-- What a read enters by the next key is what lies on the way to the mapping. -/
theorem of_enter? (h : Encloses context current (key :: keys) owner inner)
    (he : enter? current key context = some (key, child)) :
    Encloses (context.merge (Context.own child)) child keys owner inner := by
  have hchild := (enter?_child he).1
  cases h with
  | member found _ below =>
    cases found.symm.trans hchild
    exact below
  | item found below =>
    obtain ⟨j, hj, hi⟩ := Option.bind_eq_some_iff.1 hchild
    cases Numeral.eq_of_index?_toString hj
    cases found.symm.trans hi
    exact below

theorem isExpression_eq_false (h : Encloses context current keys owner inner) (key : String) :
    isExpression key current = false := by
  rw [isExpression, h.string?_eq_none]
  exact Bool.and_false _

/-- A direct read comes to the mapping and goes on there. -/
theorem walk_append (h : Encloses context current keys owner inner) (hd : Direct context current keys)
    (path : Path) (more : List String) :
    walk current path context (keys ++ more) = walk (.obj owner) (path.append keys) inner more := by
  induction keys generalizing current context path with
  | nil =>
    cases h
    rw [Path.append_nil, List.nil_append]
  | cons key rest ih =>
    obtain ⟨child, he, hd⟩ := hd
    have hbelow := h.of_enter? he
    rw [List.cons_append, walk_cons_static he (hbelow.isExpression_eq_false key), ih hbelow hd,
      Path.child_append]

/-- A read that comes to a member of the mapping at its place is direct. -/
theorem direct_of_holds (h : Encloses context current keys owner inner)
    (hw : (walk current path context (keys ++ [name])).Holds (path.append (keys ++ [key])) key value) :
    Direct context current keys := by
  induction keys generalizing current context path with
  | nil => trivial
  | cons k rest ih =>
    obtain ⟨child, he⟩ := hw.enters
    have hbelow := h.of_enter? he
    rw [List.cons_append, List.cons_append, walk_cons_static he (hbelow.isExpression_eq_false k),
      ← Path.child_append] at hw
    exact ⟨child, he, ih hbelow hw⟩

/-- A read of a base name comes to its winner in the mapping exactly if it is direct and the name carries
no marker. -/
theorem walk_holds_iff (h : Encloses context current keys owner inner) (hn : name ∈ baseNames owner)
    (hkey : resolveVariant name inner (owner.map (·.1)) = some key) (hl : owner.lookup key = some value)
    (path : Path) :
    (walk current path context (keys ++ [name])).Holds (path.append (keys ++ [key])) key value ↔
      Direct context current keys ∧ isMarked name = false := by
  have hplace : path.append (keys ++ [key]) = (path.append keys).append [key] := by
    simp only [Path.append, List.append_assoc]
  rw [← selectKey_baseName_iff hn hkey]
  constructor
  · intro hw
    have hd := h.direct_of_holds hw
    rw [h.walk_append hd, hplace] at hw
    obtain ⟨child, he⟩ := hw.enters
    exact ⟨hd, (enter?_obj.1 he).1⟩
  · rintro ⟨hd, hs⟩
    rw [h.walk_append hd, hplace]
    exact holds_of_enter? (enter?_obj.2 ⟨hs, hl⟩) _

/-- Where nobody wins a direct read finds nothing. -/
theorem walk_missing_iff (h : Encloses context current keys owner inner) (hn : name ∈ baseNames owner)
    (hd : Direct context current keys) (hm : isMarked name = false) (path : Path) :
    walk current path context (keys ++ [name]) = .missing ↔
      resolveVariant name inner (owner.map (·.1)) = none := by
  have hselect : selectKey owner name inner = resolveVariant name inner (owner.map (·.1)) := by
    rw [selectKey, isExact_of_mem_baseNames hn, hm]
    rfl
  rw [h.walk_append hd, ← hselect, ← enter?_obj_eq_none_iff]
  refine ⟨fun hw => ?_, fun he => walk_cons_none he []⟩
  rcases walk_cons_cases (.obj owner) inner name with he | ⟨_, _, he, hk⟩ | ⟨_, _, he, hx⟩
  · exact he
  · rw [walk_cons_expression he hk] at hw
    cases hw
  · rw [walk_cons_static he hx] at hw
    cases hw

end Encloses

/-- What is reported of a group is what its mapping says, in the context in force there. A read of the
group's path agrees, that is, comes to the winner and finds nothing where there is none, if it picks each
key on the way by its own name and the base name carries no marker. Otherwise it does not come to the
winner. -/
theorem winner_read_iff {document : Value} (hd : document.Distinct) (context : Context)
    (hg : g ∈ variantGroups document context) (hp : g.path = ⟨keys ++ [name]⟩) :
    let base : Context := context.merge (Context.own document)
    ∃ owner inner, Encloses base document keys owner inner ∧
      g.candidates = rankVariants name inner (owner.map (·.1)) ∧
      (Direct base document keys → isMarked name = false →
        (locate document g.path context = .missing ↔ g.winner = none)) ∧
      ∀ key, g.winner = some key → ∃ value, owner.lookup key = some value ∧
        ((locate document g.path context).Holds ⟨keys ++ [key]⟩ key value ↔
          Direct base document keys ∧ isMarked name = false) := by
  intro base
  obtain ⟨keys', owner, inner, name', hencl, hn, hgroup⟩ := (mem_variantGroups_iff hd).1 hg
  obtain ⟨-, rfl⟩ := groupOf?_eq_some.1 hgroup
  obtain ⟨rfl, rfl⟩ : keys' = keys ∧ name' = name := by simpa [Path.child] using hp
  refine ⟨owner, inner, hencl, rfl, fun hdirect hm => hencl.walk_missing_iff hn hdirect hm .root, ?_⟩
  intro key hkey
  obtain ⟨value, hl⟩ := Option.isSome_iff_exists.1
    (Assoc.isSome_lookup_iff.2 (resolveVariant_eq_some hkey).1)
  have hroot : Path.root.append (keys' ++ [key]) = ⟨keys' ++ [key]⟩ := by
    rw [Path.append, Path.root, List.nil_append]
  exact ⟨value, hl, hroot ▸ hencl.walk_holds_iff hn hkey hl .root⟩

/-- A menu with a title in Spanish, beside another menu. -/
def menuBeside (key : String) : Value :=
  .obj [("menu", .obj [("title", .str "Menu"), ("title:es", .str "Carta")]), (key, .obj [])]

def spanish : Context :=
  .ofList [("lang", "es")]

/-- The title of the menu as it is reported for Spanish. -/
def titleGroup : VariantGroup :=
  ⟨⟨["menu", "title"]⟩, [⟨"title:es", 1000, 0, false⟩, ⟨"title", 0, 0, true⟩], some "title:es"⟩

/-- Beside a French menu, the Spanish title is reported and read. -/
theorem spanish_title_read :
    (menuBeside "menu:fr").Distinct ∧
      titleGroup ∈ variantGroups (menuBeside "menu:fr") spanish ∧
      (locate (menuBeside "menu:fr") ⟨["menu", "title"]⟩ spanish).Holds
        ⟨["menu", "title:es"]⟩ "title:es" (.str "Carta") := by
  have hd : (menuBeside "menu:fr").Distinct := by simp [menuBeside, Value.Distinct]
  have hgroups : variantGroups (menuBeside "menu:fr") spanish =
      [⟨⟨["menu"]⟩, [⟨"menu", 0, 0, true⟩, ⟨"menu:fr", 0, 1, false⟩], some "menu"⟩, titleGroup] := by
    cbv
  have hg : titleGroup ∈ variantGroups (menuBeside "menu:fr") spanish := by
    simp [hgroups]
  obtain ⟨owner, inner, hencl, -, -, hread⟩ := winner_read_iff hd spanish hg
    (show titleGroup.path = ⟨["menu"] ++ ["title"]⟩ from rfl)
  obtain ⟨value, hl, hholds⟩ := hread "title:es" rfl
  refine ⟨hd, hg, ?_⟩
  have hdirect : Direct (spanish.merge (Context.own (menuBeside "menu:fr")))
      (menuBeside "menu:fr") ["menu"] := ⟨_, by cbv, trivial⟩
  have hvalue : value = .str "Carta" := by
    cases hencl with
    | member found _ below =>
      cases found
      cases below
      exact (Option.some.inj hl).symm
  exact hvalue ▸ hholds.2 ⟨hdirect, by decide⟩

/-- Beside a Spanish menu, the Spanish title of the other one is reported, but nothing is read. -/
theorem spanish_title_passed_by :
    ∃ g ∈ variantGroups (menuBeside "menu:es") spanish,
      g.winner = some "title:es" ∧
        locate (menuBeside "menu:es") g.path spanish = .missing := by
  have hgroups : variantGroups (menuBeside "menu:es") spanish =
      [⟨⟨["menu"]⟩, [⟨"menu:es", 1000, 0, false⟩, ⟨"menu", 0, 0, true⟩], some "menu:es"⟩, titleGroup] := by
    cbv
  refine ⟨titleGroup, by simp [hgroups], rfl, by cbv⟩

end LiveDoc
