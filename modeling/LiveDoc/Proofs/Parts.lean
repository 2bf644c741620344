import LiveDoc.Proofs.Respelling

/-! # Reading a part

Reading a mapping or an array reads each part by its place. So reading a part by itself comes to the
part of what reading the whole comes to, and it needs no expression that the whole does not need.
-/

namespace LiveDoc

namespace Value

theorem depth_le_depthItems {items : List Value} {v : Value} (h : v ∈ items) :
    v.depth ≤ depthItems items := by
  induction items with
  | nil => cases h
  | cons w rest ih =>
    rw [depthItems]
    rcases List.mem_cons.1 h with rfl | h
    · exact Nat.le_max_left _ _
    · exact Nat.le_trans (ih h) (Nat.le_max_right _ _)

theorem depth_le_depthMembers {members : Members} {key : String} {v : Value}
    (h : (key, v) ∈ members) : v.depth ≤ depthMembers members := by
  induction members with
  | nil => cases h
  | cons e rest ih =>
    obtain ⟨_, w⟩ := e
    rw [depthMembers]
    rcases List.mem_cons.1 h with h | h
    · cases h
      exact Nat.le_max_left _ _
    · exact Nat.le_trans (ih h) (Nat.le_max_right _ _)

/-- Parts are less deep than the whole. -/
theorem depth_child?_lt {v part : Value} {segment : String} (h : v.child? segment = some part) :
    part.depth < v.depth := by
  cases v with
  | obj members => exact Nat.lt_succ_of_le (depth_le_depthMembers (Assoc.mem_of_lookup h))
  | arr items =>
    obtain ⟨i, -, hi⟩ := Option.bind_eq_some_iff.1 h
    exact Nat.lt_succ_of_le (depth_le_depthItems (List.mem_of_getElem? hi))
  | _ => cases h

end Value

/-! ## Accounts of composed plans -/

namespace Plan

variable {α β : Type} {S : Setting} {valueOf : Site → Option (Account Value)}

theorem account_bind {p : Plan α} {f : α → Plan β} {c : Account β} :
    (p.bind f).account S valueOf = some c ↔ ∃ a, p.account S valueOf = some a ∧
      ∃ b, (f a.result).account S valueOf = some b ∧ c = b.after a.reads a.uses := by
  induction p generalizing c with
  | done result =>
    cases result with
    | ok a => simp [Plan.bind, account, Account.after]
    | error fault => simp [Plan.bind, account]
  | find path next ih =>
    simp only [Plan.bind, account_find, ih]
    constructor
    · rintro ⟨_, ⟨a, ha, b, hb, rfl⟩, rfl⟩
      exact ⟨_, ⟨a, ha, rfl⟩, b, hb, by simp [Account.after]⟩
    · rintro ⟨_, ⟨a, ha, rfl⟩, b, hb, rfl⟩
      exact ⟨_, ⟨a, ha, b, hb, rfl⟩, by simp [Account.after]⟩
  | evaluate site fresh next ih =>
    simp only [Plan.bind, account_evaluate, ih]
    constructor
    · rintro ⟨v, hv, _, ⟨a, ha, b, hb, rfl⟩, rfl⟩
      exact ⟨_, ⟨v, hv, a, ha, rfl⟩, b, hb, by simp [Account.after]⟩
    · rintro ⟨_, ⟨v, hv, a, ha, rfl⟩, b, hb, rfl⟩
      exact ⟨v, hv, _, ⟨a, ha, b, hb, rfl⟩, by simp [Account.after]⟩
  | call name args next ih =>
    simp only [Plan.bind, account_call, ih]
    constructor
    · rintro ⟨v, hv, a, ha, b, hb, rfl⟩
      exact ⟨a, ⟨v, hv, ha⟩, b, hb, rfl⟩
    · rintro ⟨a, ⟨v, hv, ha⟩, b, hb, rfl⟩
      exact ⟨v, hv, a, ha, b, hb, rfl⟩

/-- A plan of which the result is only changed. -/
theorem account_map {p : Plan α} {g : α → β} {c : Account β} :
    (p.bind fun a => pure (g a)).account S valueOf = some c ↔
      ∃ a, p.account S valueOf = some a ∧ c = ⟨g a.result, a.reads, a.uses⟩ := by
  simp only [account_bind, pure, account, Option.some.injEq, exists_eq_left', Account.after,
    List.append_nil]

/-- What is gathered is what the items come to, each with expressions of its own. -/
theorem account_gather {item : α → Plan β} {as : List α} {c : Account (List β)}
    (h : (gather item as).account S valueOf = some c) :
    List.Forall₂ (fun a v => ∃ b, (item a).account S valueOf = some b ∧ b.result = v ∧
      ∀ key ∈ b.uses, key ∈ c.uses) as c.result := by
  induction as generalizing c with
  | nil =>
    cases h
    exact .nil
  | cons a rest ih =>
    obtain ⟨b, hb, d, hd, rfl⟩ := account_bind.1 h
    obtain ⟨bs, hbs, rfl⟩ := account_map.1 hd
    refine .cons ⟨b, hb, rfl, fun key hk => List.mem_append_left _ hk⟩ ((ih hbs).imp ?_)
    rintro a v ⟨b', hb', hv, hk⟩
    exact ⟨b', hb', hv, fun key hkey => List.mem_append_right _ (hk key hkey)⟩

theorem account_bind_congr {p p' : Plan α} {f f' : α → Plan β}
    (hp : p.account S valueOf = p'.account S valueOf)
    (hf : ∀ a, (f a).account S valueOf = (f' a).account S valueOf) :
    (p.bind f).account S valueOf = (p'.bind f').account S valueOf := by
  refine Option.ext fun c => ?_
  rw [account_bind, account_bind, hp]
  simp only [hf]

theorem account_find_congr {path : Path} {next next' : Found → Plan α}
    (h : (next (S.find path)).account S valueOf = (next' (S.find path)).account S valueOf) :
    (Plan.find path next).account S valueOf = (Plan.find path next').account S valueOf := by
  rw [account, account, h]

theorem account_gather_congr {item item' : α → Plan β} {as : List α}
    (h : ∀ a ∈ as, (item a).account S valueOf = (item' a).account S valueOf) :
    (gather item as).account S valueOf = (gather item' as).account S valueOf := by
  induction as with
  | nil => rfl
  | cons a rest ih =>
    obtain ⟨ha, hrest⟩ := List.forall_mem_cons.1 h
    exact account_bind_congr ha fun b => account_bind_congr (ih hrest) fun bs => rfl

/-- Reading a mapping puts its slots together. -/
theorem account_mapping {slots : List (String × Path)} {levels levels' : Nat} {fresh : Bool}
    {a : Account (Option Value)}
    (h : (descend fresh (levels + 1) (.mapping slots levels')).account S valueOf = some a) :
    ∃ members, a.result = some (.obj (Assoc.ofList members)) ∧
      List.Forall₂ (fun slot member => member.1 = slot.1 ∧
        ∃ b, (descend fresh levels (S.find slot.2)).account S valueOf = some b ∧
          member.2 = b.result.getD .null ∧ ∀ key ∈ b.uses, key ∈ a.uses) slots members := by
  obtain ⟨c, hc, rfl⟩ := account_map.1 h
  refine ⟨c.result, rfl, (account_gather hc).imp ?_⟩
  rintro ⟨name, path⟩ member ⟨b, hb, rfl, hk⟩
  obtain ⟨d, hd, rfl⟩ := account_map.1 hb
  obtain ⟨e, he, rfl⟩ := account_find.1 hd
  exact ⟨rfl, e, he, rfl, hk⟩

/-- Reading an array puts its items together. -/
theorem account_list {items : List Path} {levels levels' : Nat} {fresh : Bool}
    {a : Account (Option Value)}
    (h : (descend fresh (levels + 1) (.list items levels')).account S valueOf = some a) :
    ∃ values, a.result = some (.arr values) ∧
      List.Forall₂ (fun path v => ∃ b, (descend fresh levels (S.find path)).account S valueOf = some b ∧
        v = b.result.getD .null ∧ ∀ key ∈ b.uses, key ∈ a.uses) items values := by
  obtain ⟨c, hc, rfl⟩ := account_map.1 h
  refine ⟨c.result, rfl, (account_gather hc).imp ?_⟩
  rintro path v ⟨b, hb, rfl, hk⟩
  obtain ⟨d, hd, rfl⟩ := account_map.1 hb
  obtain ⟨e, he, rfl⟩ := account_find.1 hd
  exact ⟨e, he, rfl, hk⟩

theorem account_mapping_congr {slots : List (String × Path)} {n m levels levels' : Nat}
    {fresh fresh' : Bool} (h : ∀ slot ∈ slots, (descend fresh n (S.find slot.2)).account S valueOf =
      (descend fresh' m (S.find slot.2)).account S valueOf) :
    (descend fresh (n + 1) (.mapping slots levels)).account S valueOf =
      (descend fresh' (m + 1) (.mapping slots levels')).account S valueOf :=
  account_bind_congr (account_gather_congr fun slot hs =>
    account_bind_congr (account_find_congr (h slot hs)) fun _ => rfl) fun _ => rfl

theorem account_list_congr {items : List Path} {n m levels levels' : Nat} {fresh fresh' : Bool}
    (h : ∀ path ∈ items, (descend fresh n (S.find path)).account S valueOf =
      (descend fresh' m (S.find path)).account S valueOf) :
    (descend fresh (n + 1) (.list items levels)).account S valueOf =
      (descend fresh' (m + 1) (.list items levels')).account S valueOf :=
  account_bind_congr (account_gather_congr fun path hp =>
    account_bind_congr (account_find_congr (h path hp)) fun _ => rfl) fun _ => rfl

end Plan

/-! ## Parts of what lies at a path -/

theorem Found.exists_levelsOf (value : Value) : ∃ k, Found.levelsOf value = k + 1 :=
  ⟨value.depth + 4294967295, rfl⟩

theorem mem_slotsOf {path place : Path} {context : Context} {members : Members} {name : String} :
    (name, place) ∈ Found.slotsOf path context members ↔ name ∈ baseNames members ∧
      ∃ key, resolveVariant name context (members.map (·.1)) = some key ∧ place = path.child key := by
  simp only [Found.slotsOf, List.mem_filterMap, Option.map_eq_some_iff, Prod.mk.injEq]
  constructor
  · rintro ⟨_, hn, key, hr, rfl, rfl⟩
    exact ⟨hn, key, hr, rfl⟩
  · rintro ⟨hn, key, hr, rfl⟩
    exact ⟨name, hn, key, hr, rfl, rfl⟩

theorem nodup_slotsOf (path : Path) (context : Context) (members : Members) :
    ((Found.slotsOf path context members).map (·.1)).Nodup := by
  rw [Found.slotsOf, List.map_filterMap]
  refine (nodup_eraseDups _).filterMap fun name name' b hb hb' => ?_
  simp only [Option.map_map, Option.mem_def, Option.map_eq_some_iff, Function.comp_apply] at hb hb'
  obtain ⟨_, -, rfl⟩ := hb
  obtain ⟨_, -, h⟩ := hb'
  exact h.symm

/-- A bare name of a slot that a key fills is among those that a read of the mapping goes
through. -/
theorem mem_baseNames {members : Members} {name key : String} {context : Context}
    (hb : name ≠ contextKey) (h : resolveVariant name context (members.map (·.1)) = some key) :
    name ∈ baseNames members := by
  obtain ⟨hk, hs⟩ := resolveVariant_eq_some h
  rw [baseNames, List.mem_eraseDups]
  refine List.mem_map.2 ⟨key, List.mem_filter.2 ⟨hk, ?_⟩, hs⟩
  rw [bne_iff_ne]
  rintro rfl
  exact hb (hs.symm.trans (slotName_of_bare (by decide)))

namespace Setting

variable {S : Setting} {document : Value} {base : Context} {path : Path} {current value : Value}
  {context : Context} {segment key : String}

theorem FindsIn.child (hS : S.FindsIn document base)
    (h : locate document path base = .static path current context) (segment : String) :
    S.find (path.child segment) = .ofLocated (walk current path context [segment]) := by
  rw [hS, ← locate_place h]
  rfl

theorem locate_child_static (h : locate document path base = .static path current context)
    (he : enter? current segment context = some (key, value)) (hx : isExpression key value = false) :
    locate document (path.child key) base =
      .static (path.child key) value (context.merge (Context.own value)) := by
  have hk := (enter?_child he).2.1
  exact (locate_place h [key]).trans (walk_cons_static hk hx [])

/-- How far down a read may go does not count where it is far enough. -/
theorem FindsIn.account_levels (hS : S.FindsIn document base)
    {valueOf : Site → Option (Account Value)}
    (h : locate document path base = .static path current context) {n m : Nat}
    (hn : current.depth ≤ n) (hm : current.depth ≤ m) (fresh fresh' : Bool) :
    (Plan.descend fresh n (.ofLocated (.static path current context))).account S valueOf =
      (Plan.descend fresh' m (.ofLocated (.static path current context))).account S valueOf := by
  induction n generalizing path current context m with
  | zero =>
    cases current with
    | arr | obj => simp [Value.depth] at hn
    | _ => simp only [Found.ofLocated, Plan.descend]
  | succ n ih =>
    -- what lies below is less deep
    have hchild (m : Nat) (hm : current.depth ≤ m + 1) (key : String) :
        (Plan.descend fresh n (S.find (path.child key))).account S valueOf =
          (Plan.descend fresh' m (S.find (path.child key))).account S valueOf := by
      rw [hS.child h]
      rcases walk_cons_cases current context key with he | ⟨key', text, he, hk⟩ |
        ⟨key', value, he, hx⟩
      · simp only [walk_cons_none he, Found.ofLocated, Plan.descend]
      · simp only [walk_cons_expression he hk, Found.ofLocated, Plan.descend, Plan.account]
      · have hd := Value.depth_child?_lt (enter?_child he).1
        rw [walk_cons_static he hx]
        exact ih (locate_child_static h he hx) (by omega) (by omega)
    cases current with
    | obj members =>
      obtain _ | m := m
      · simp [Value.depth] at hm
      refine Plan.account_mapping_congr fun slot hs => ?_
      obtain ⟨-, key, -, hp⟩ := mem_slotsOf.1 hs
      rw [hp]
      exact hchild m hm key
    | arr items =>
      obtain _ | m := m
      · simp [Value.depth] at hm
      refine Plan.account_list_congr fun place hp => ?_
      obtain ⟨i, -, rfl⟩ := List.mem_map.1 hp
      exact hchild m hm (toString i)
    | _ => simp only [Found.ofLocated, Plan.descend]

end Setting

/-- A read from what was found, to the bottom. -/
def Found.plan (fresh : Bool) (found : Found) : Plan (Option Value) :=
  Plan.descend fresh found.levels found

/-- The first account is that of reading a part of what the second one is of. -/
structure Account.Part (q : List String) (b a : Account (Option Value)) : Prop where
  result : b.result = a.result.bind (·.descend? q)
  uses : (∀ s ∈ q, Numeral.Canonical s) → ∀ key ∈ b.uses, key ∈ a.uses

namespace Setting.FindsIn

variable {S : Setting} {document : Value} {base : Context} {path : Path} {current value : Value}
  {context : Context} {segment key : String} {n levels : Nat} {fresh fresh' : Bool}
  {a : Account (Option Value)} {q rest : List String}

/-- What lies at a path has a value. -/
theorem isSome_account (h : current.depth ≤ levels)
    (ha : (Plan.descend fresh levels (.ofLocated (.static path current context))).account S
      (S.account n) = some a) : a.result.isSome = true := by
  cases current with
  | obj members =>
    obtain _ | levels := levels
    · simp [Value.depth] at h
    obtain ⟨members, hr, -⟩ := Plan.account_mapping ha
    rw [hr]
    rfl
  | arr items =>
    obtain _ | levels := levels
    · simp [Value.depth] at h
    obtain ⟨values, hr, -⟩ := Plan.account_list ha
    rw [hr]
    rfl
  | _ =>
    simp only [Found.ofLocated, Plan.descend, pure, Plan.account, Option.some.injEq] at ha
    subst ha
    rfl

variable (hS : S.FindsIn document base)

include hS in
/-- Reading on through a member or an item. -/
theorem account_through (h : locate document path base = .static path current context)
    (he : enter? current segment context = some (key, value)) (hl : value.depth ≤ levels)
    (ha : (Plan.descend fresh levels (S.find (path.child key))).account S (S.account n) = some a)
    (ih : ∀ {place : Path} {context' : Context},
      locate document place base = .static place value context' →
      (Plan.descend fresh levels (.ofLocated (.static place value context'))).account S
        (S.account n) = some a →
      ∃ b, (Found.plan fresh' (.ofLocated (walk value place context' rest))).account S
        (S.account n) = some b ∧ b.Part rest a) :
    a.result.isSome = true ∧
      ∃ b, (Found.plan fresh' (.ofLocated (walk current path context (segment :: rest)))).account S
        (S.account n) = some b ∧ b.Part rest a := by
  have hself := (enter?_child he).2.1
  rw [hS.child h] at ha
  cases hx : isExpression key value with
  | false =>
    rw [walk_cons_static hself hx, walk] at ha
    rw [walk_cons_static he hx]
    exact ⟨isSome_account hl ha, ih (locate_child_static h he hx) ha⟩
  | true =>
    obtain ⟨text, rfl⟩ : ∃ text, value = .str text := by
      simp only [isExpression, Bool.and_eq_true] at hx
      cases value with
      | str text => exact ⟨text, rfl⟩
      | _ => simp [Value.string?] at hx
    have hk : isMarked key = true := by
      simp only [isExpression, Bool.and_eq_true] at hx
      exact hx.1
    rw [walk_cons_expression hself hk] at ha
    rw [walk_cons_expression he hk]
    simp only [Found.ofLocated, Plan.descend] at ha
    obtain ⟨v, hv, c, hc, rfl⟩ := Plan.account_evaluate.1 ha
    simp only [pure, Plan.account, Option.some.injEq] at hc
    subst hc
    have hsame : Site.Same ⟨path.child key, text, context, rest⟩ ⟨path.child key, text, context, []⟩ :=
      ⟨rfl, rfl, rfl⟩
    exact ⟨rfl, _, Plan.account_evaluate.2 ⟨v, (Setting.account_congr hsame n).trans hv, _, rfl, rfl⟩,
      rfl, fun _ key hk => hk⟩

omit hS in
/-- Reading a slot of a mapping. -/
theorem account_slot {members : Members} {levels' : Nat}
    (ha : (Plan.descend fresh (levels + 1) (.mapping (Found.slotsOf path context members)
      levels')).account S (S.account n) = some a)
    (hb : isExact segment = false) (hc : segment ≠ contextKey) :
    ∃ members', a.result = some (.obj members') ∧
      ((enter? (.obj members) segment context = none ∧ members'.lookup segment = none) ∨
        ∃ key value c, enter? (.obj members) segment context = some (key, value) ∧
          (Plan.descend fresh levels (S.find (path.child key))).account S (S.account n) = some c ∧
          members'.lookup segment = some (c.result.getD .null) ∧ ∀ key ∈ c.uses, key ∈ a.uses) := by
  obtain ⟨entries, hr, hm⟩ := Plan.account_mapping ha
  refine ⟨_, hr, ?_⟩
  have hnames : (Found.slotsOf path context members).map (·.1) = entries.map (·.1) := by
    rw [← List.forall₂_eq_eq_eq, List.forall₂_map_left_iff, List.forall₂_map_right_iff]
    exact hm.imp fun slot entry h => h.1.symm
  have hselect : selectKey members segment context =
      resolveVariant segment context (members.map (·.1)) := if_neg (Bool.eq_false_iff.1 hb)
  rw [Assoc.lookup_ofList (hnames ▸ nodup_slotsOf path context members)]
  cases hs : resolveVariant segment context (members.map (·.1)) with
  | none =>
    refine .inl ⟨by rw [enter?, hselect, hs]; rfl, Assoc.lookup_eq_none_iff.2 fun hk => ?_⟩
    rw [← hnames] at hk
    obtain ⟨⟨name, place⟩, hslot, rfl⟩ := List.mem_map.1 hk
    obtain ⟨-, key, hkey, -⟩ := mem_slotsOf.1 hslot
    rw [hs] at hkey
    cases hkey
  | some key =>
    have hslot : (segment, path.child key) ∈ Found.slotsOf path context members :=
      mem_slotsOf.2 ⟨mem_baseNames hc hs, key, hs, rfl⟩
    obtain ⟨i, hi⟩ := List.getElem?_of_mem hslot
    obtain ⟨⟨_, v⟩, hv, rfl, c, hc, rfl, hu⟩ := exists_of_forall₂ hm hi
    have hmem := (resolveVariant_eq_some hs).1
    obtain ⟨value, hl⟩ := Option.isSome_iff_exists.1 (Assoc.isSome_lookup_iff.2 hmem)
    refine .inr ⟨key, value, c, enter?_obj.2 ⟨hselect.trans hs, hl⟩, hc, ?_, hu⟩
    exact Assoc.lookup_of_mem (hnames ▸ nodup_slotsOf path context members) (List.mem_of_getElem? hv)

include hS in
/-- Reading an item of an array, however its index is spelled. -/
theorem account_item {items : List Value}
    (h : locate document path base = .static path (.arr items) context) {levels' : Nat}
    (ha : (Plan.descend fresh (levels + 1) (.list (Found.itemsOf path items) levels')).account S
      (S.account n) = some a) :
    ∃ values, a.result = some (.arr values) ∧
      ((enter? (.arr items) segment context = none ∧ (Value.arr values).child? segment = none) ∨
        ∃ value c, enter? (.arr items) segment context = some (segment, value) ∧
          (Plan.descend fresh levels (S.find (path.child segment))).account S (S.account n) = some c ∧
          (Value.arr values).child? segment = some (c.result.getD .null) ∧
          (Numeral.Canonical segment → ∀ key ∈ c.uses, key ∈ a.uses)) := by
  obtain ⟨values, hr, hv⟩ := Plan.account_list ha
  refine ⟨values, hr, ?_⟩
  have hlength : items.length = values.length := by
    rw [← hv.length_eq, Found.itemsOf, List.length_map, List.length_range]
  cases hs : Numeral.index? segment with
  | none => exact .inl ⟨by simp [enter?, Value.child?, hs], by simp [Value.child?, hs]⟩
  | some i =>
    rcases Nat.lt_or_ge i items.length with hi | hi
    · have hplace : (Found.itemsOf path items)[i]? = some (path.child (toString i)) := by
        simp [Found.itemsOf, hi]
      obtain ⟨v, hvi, c, hc, rfl, hu⟩ := exists_of_forall₂ hv hplace
      have hspelled : (path.child (toString i)).Respelled document base (path.child segment) :=
        .item (.refl path) h (Numeral.index?_toString (Numeral.fitsUnsigned_of_index? hs)) hs
      obtain ⟨d, hd, hdr⟩ := hspelled.account_descend hS hc
      refine .inr ⟨items[i], d, ?_, hd, ?_, fun hcanonical key hk => ?_⟩
      · simp [enter?, Value.child?, hs, hi]
      · rw [Value.child?, hs, hdr]
        exact hvi
      · rw [hcanonical i hs, hc, Option.some.injEq] at hd
        exact hu key (hd ▸ hk)
    · refine .inl ⟨?_, ?_⟩
      · simp [enter?, Value.child?, hs, hi]
      · simp [Value.child?, hs, ← hlength, hi]

include hS in
/-- Reading a part of what lies at a path. -/
theorem account_part (h : locate document path base = .static path current context)
    (hl : current.depth ≤ levels)
    (ha : (Plan.descend fresh levels (.ofLocated (.static path current context))).account S
      (S.account n) = some a)
    (hq : ∀ s ∈ q, isExact s = false ∧ s ≠ contextKey) (fresh' : Bool) :
    ∃ b, (Found.plan fresh' (.ofLocated (walk current path context q))).account S (S.account n) =
      some b ∧ b.Part q a := by
  induction q generalizing path current context levels a with
  | nil =>
    refine ⟨a, ?_, (Option.bind_fun_some a.result).symm, fun _ _ hk => hk⟩
    rw [Found.plan, walk, ← ha]
    refine hS.account_levels h ?_ hl fresh' fresh
    cases current with
    | obj | arr => exact Nat.le_add_right _ _
    | _ => exact Nat.le_refl 0
  | cons s rest ih =>
    obtain ⟨⟨hb, hc⟩, hrest⟩ := List.forall_mem_cons.1 hq
    have hnone (he : enter? current s context = none) (hr : a.result.bind (·.child? s) = none) :
        ∃ b, (Found.plan fresh' (.ofLocated (walk current path context (s :: rest)))).account S
          (S.account n) = some b ∧ b.Part (s :: rest) a := by
      rw [walk_cons_none he]
      refine ⟨⟨none, [], []⟩, rfl, ?_, fun _ _ hk => absurd hk List.not_mem_nil⟩
      cases hv : a.result with
      | none => rfl
      | some v =>
        rw [hv, Option.bind_some] at hr
        rw [Option.bind_some, Value.descend?, hr, Option.bind_none]
    have hsome {key : String} {value : Value} {levels : Nat} {c : Account (Option Value)}
        (he : enter? current s context = some (key, value)) (hd : value.depth ≤ levels)
        (hacc : (Plan.descend fresh levels (S.find (path.child key))).account S (S.account n) = some c)
        (hr : a.result.bind (·.child? s) = some (c.result.getD .null))
        (hu : Numeral.Canonical s → ∀ key ∈ c.uses, key ∈ a.uses) :
        ∃ b, (Found.plan fresh' (.ofLocated (walk current path context (s :: rest)))).account S
          (S.account n) = some b ∧ b.Part (s :: rest) a := by
      obtain ⟨hv, b, hb, hpart⟩ := hS.account_through h he hd hacc fun hplace hacc =>
        ih hplace hd hacc hrest
      obtain ⟨v, hv⟩ := Option.isSome_iff_exists.1 hv
      refine ⟨b, hb, ?_, fun hcanonical key hk => ?_⟩
      · calc b.result
          _ = c.result.bind (·.descend? rest) := hpart.result
          _ = (some (c.result.getD .null)).bind (·.descend? rest) := by rw [hv, Option.getD_some]
          _ = (a.result.bind (·.child? s)).bind (·.descend? rest) := by rw [hr]
          _ = a.result.bind (·.descend? (s :: rest)) := Option.bind_assoc ..
      · obtain ⟨hcs, hcr⟩ := List.forall_mem_cons.1 hcanonical
        exact hu hcs key (hpart.uses hcr key hk)
    cases current with
    | obj members =>
      obtain _ | levels := levels
      · simp [Value.depth] at hl
      obtain ⟨members', hr, ⟨he, hv⟩ | ⟨key, value, c, he, hacc, hv, hu⟩⟩ := account_slot ha hb hc
      · exact hnone he (by rw [hr]; exact hv)
      · have hd := Value.depth_child?_lt (enter?_child he).1
        exact hsome he (by omega) hacc (by rw [hr]; exact hv) fun _ => hu
    | arr items =>
      obtain _ | levels := levels
      · simp [Value.depth] at hl
      obtain ⟨values, hr, ⟨he, hv⟩ | ⟨value, c, he, hacc, hv, hu⟩⟩ := hS.account_item h ha
      · exact hnone he (by rw [hr]; exact hv)
      · have hd := Value.depth_child?_lt (enter?_child he).1
        exact hsome he (by omega) hacc (by rw [hr]; exact hv) hu
    | _ =>
      simp only [Found.ofLocated, Plan.descend, pure, Plan.account, Option.some.injEq] at ha
      subst ha
      exact hnone rfl rfl

end Setting.FindsIn

end LiveDoc
