import LiveDoc.Proofs.MissingReferences
import LiveDoc.Proofs.KeptKeys
import LiveDoc.Proofs.ReportedWinners
import LiveDoc.Proofs.ShownMappings

/-! # Fields and reads

A field says what is stored at a path, a read puts it together from its parts. The two agree on kept
results and on what is absent. A static value is read as it is stored exactly if its mappings name their
own slots; a mapping with variants, expressions or a context of its own is shown as something else.
-/

namespace LiveDoc

variable {σ α β : Type}

/-! ## Names of shown slots -/

section Names

/-- A key that is the name of its own slot is bare. -/
theorem isExact_of_slotName {key : String} (h : slotName key = key) : isExact key = false := by
  have hcolon := colon_not_mem_slotName key
  have hmarked : isMarked key = false := Bool.eq_false_iff.2 fun hm => slotName_ne_of_marked hm h
  rw [h] at hcolon
  rw [isExact, hmarked, Bool.or_false, List.contains_eq_mem, decide_eq_false hcolon]

/-- Every key is the name of its own slot, and none declares a context. -/
def Bare (members : Members) : Prop :=
  ∀ key ∈ members.map (·.1), isExact key = false ∧ key ≠ contextKey

instance (members : Members) : Decidable (Bare members) :=
  inferInstanceAs (Decidable (∀ key ∈ members.map (·.1), isExact key = false ∧ key ≠ contextKey))

variable {members : Members} {path place : Path} {context : Context} {key : String}

/-- Among bare keys each wins its own slot. -/
theorem Bare.resolveVariant (h : Bare members) (hk : key ∈ members.map (·.1)) (context : Context) :
    resolveVariant key context (members.map (·.1)) = some key := by
  obtain ⟨winner, hwinner⟩ := Option.isSome_iff_exists.1 (isSome_resolveVariant context (h key hk).1 hk)
  obtain ⟨hmem, hslot⟩ := resolveVariant_eq_some hwinner
  rw [slotName_of_bare (h winner hmem).1] at hslot
  rw [hwinner, hslot]

theorem Bare.baseNames (h : Bare members) (hn : (members.map (·.1)).Nodup) :
    baseNames members = members.map (·.1) := by
  have hfilter : (members.map (·.1)).filter (· != contextKey) = members.map (·.1) :=
    List.filter_eq_self.2 fun key hk => bne_iff_ne.2 (h key hk).2
  have hslots : (members.map (·.1)).map slotName = members.map (·.1) := by
    conv_rhs => rw [← List.map_id (members.map (·.1))]
    exact List.map_inj_left.2 fun key hk => slotName_of_bare (h key hk).1
  rw [LiveDoc.baseNames, hfilter, hslots, eraseDups_of_nodup hn]

/-- A mapping is shown with its own keys exactly if they are bare. -/
theorem slotsOf_names_iff (hn : (members.map (·.1)).Nodup) :
    (Found.slotsOf path context members).map (·.1) = members.map (·.1) ↔ Bare members := by
  rw [slotsOf_names]
  constructor
  · intro h
    let kept := (members.map (·.1)).filter (· != contextKey)
    -- erasing repetitions and dropping slots without a winner can only shorten the list
    have hsub : (members.map (·.1)).Sublist (kept.map slotName) := by
      rw [← h]
      exact List.filter_sublist.trans (eraseDups_sublist _)
    have hlength : (kept.map slotName).length ≤ (members.map (·.1)).length := by
      rw [List.length_map]
      exact List.length_filter_le _ _
    have hslots : members.map (·.1) = kept.map slotName := hsub.eq_of_length_le hlength
    have hkept : kept = members.map (·.1) := by
      apply List.filter_sublist.eq_of_length
      rw [← List.length_map slotName, ← hslots]
    rw [hkept] at hslots
    intro key hk
    have hself : slotName key = key :=
      (List.map_inj_left (f := id) (g := slotName)).1 (by rw [List.map_id]; exact hslots) key hk |>.symm
    exact ⟨isExact_of_slotName hself, bne_iff_ne.1 (List.filter_eq_self.1 hkept key hk)⟩
  · intro h
    rw [h.baseNames hn]
    apply List.filter_eq_self.2
    intro key hk
    rw [h.resolveVariant hk, Option.isSome_some]

end Names

/-! ## Values that are shown as they are stored -/

/-- Every key of the mappings inside is the name of its own slot, none declares a context, and what lies
behind the last index of 64 bits is `null`. -/
inductive Value.Plain : Value → Prop where
  | null : Plain .null
  | bool (b : Bool) : Plain (.bool b)
  | num (n : Number) : Plain (.num n)
  | str (s : String) : Plain (.str s)
  | arr {items : List Value} (parts : ∀ v ∈ items, Plain v)
    (reached : ∀ i v, items[i]? = some v → Numeral.fitsUnsigned i = false → v = .null) :
    Plain (.arr items)
  | obj {members : Members} (bare : Bare members) (parts : ∀ e ∈ members, Plain e.2) :
    Plain (.obj members)

section Shown

variable {S : Setting} {valueOf : Site → Option (Account Value)} {document value : Value}
  {base context inner : Context} {place : Path} {members : Members} {items : List Value} {key : String}
  {fresh : Bool} {levels : Nat}

theorem enter?_bare (h : Bare members) (hl : members.lookup key = some value) (context : Context) :
    enter? (.obj members) key context = some (key, value) := by
  have hk : key ∈ members.map (·.1) := Assoc.isSome_lookup_iff.1 (hl ▸ rfl)
  rw [enter?_obj, selectKey, if_neg (Bool.eq_false_iff.1 (h key hk).1)]
  exact ⟨h.resolveVariant hk context, hl⟩

theorem enter?_behind {i : Nat} (hf : Numeral.fitsUnsigned i = false) (context : Context) :
    enter? (.arr items) (toString i) context = none := by
  rw [enter?_arr, Numeral.index?_toString_eq, Option.filter_some_neg (by simpa using hf),
    Option.bind_none, Option.map_none]

theorem slotsOf_of_bare (h : Bare members) (hn : (members.map (·.1)).Nodup) (place : Path)
    (context : Context) :
    Found.slotsOf place context members = members.map fun e => (e.1, place.child e.1) := by
  have hslot (e : String × Value) (he : e ∈ members) :
      ((resolveVariant e.1 context (members.map (·.1))).map fun key => (e.1, place.child key)) =
        some (e.1, place.child e.1) := by
    rw [h.resolveVariant (List.mem_map_of_mem he), Option.map_some]
  rw [Found.slotsOf, h.baseNames hn, List.filterMap_map]
  exact (List.filterMap_congr hslot).trans (congrFun List.filterMap_eq_map members)

/-- What lies at an index is found there, if the index can be named. -/
theorem locate_item (hl : locate document place base = .static place (.arr items) inner) {i : Nat}
    (hi : items[i]? = some value) :
    Numeral.fitsUnsigned i = true ∧ locate document (place.child (toString i)) base =
        .static (place.child (toString i)) value (inner.merge (Context.own value)) ∨
      Numeral.fitsUnsigned i = false ∧
        locate document (place.child (toString i)) base = .missing := by
  cases hf : Numeral.fitsUnsigned i with
  | true =>
    have hindex := Numeral.index?_toString hf
    have hplain := isExpression_of_not_marked (isExact_eq_false (isExact_of_index? hindex)).2 value
    exact .inl ⟨rfl, Setting.locate_child_static hl (enter?_item hindex hi inner) hplain⟩
  | false =>
    have hchild := locate_place hl [toString i]
    exact .inr ⟨rfl, hchild.trans (walk_cons_none (enter?_behind hf inner) [])⟩

theorem locate_member (hl : locate document place base = .static place (.obj members) inner)
    (h : Bare members) (hm : members.lookup key = some value) :
    locate document (place.child key) base =
      .static (place.child key) value (inner.merge (Context.own value)) := by
  have hk : key ∈ members.map (·.1) := Assoc.isSome_lookup_iff.1 (hm ▸ rfl)
  have hplain := isExpression_of_not_marked (isExact_eq_false (h key hk).1).2 value
  exact Setting.locate_child_static hl (enter?_bare h hm inner) hplain

theorem comesTo_gather {item : α → Plan β} {as : List α} {bs : List β}
    (h : List.Forall₂ (fun a b => (item a).ComesTo S valueOf b) as bs) :
    (Plan.gather item as).ComesTo S valueOf bs := by
  induction h with
  | nil => exact Plan.comesTo_done.2 rfl
  | cons hb _ ih =>
    exact Plan.comesTo_bind.2 ⟨_, hb, Plan.comesTo_bind.2 ⟨_, ih, Plan.comesTo_done.2 rfl⟩⟩

/-- What is shown of a part that comes to a value, if it comes to one. -/
theorem comesTo_itemPart {path : Path} {shown : Option Value}
    (h : (Plan.descend fresh levels (S.find path)).ComesTo S valueOf shown) :
    (Plan.itemPart fresh levels path).ComesTo S valueOf (shown.getD .null) :=
  Plan.comesTo_bind.2 ⟨shown, Plan.comesTo_find.2 h, Plan.comesTo_done.2 rfl⟩

theorem comesTo_slotPart {name : String} {path : Path} {shown : Option Value}
    (h : (Plan.descend fresh levels (S.find path)).ComesTo S valueOf shown) :
    (Plan.slotPart fresh levels (name, path)).ComesTo S valueOf (name, shown.getD .null) :=
  Plan.comesTo_bind.2 ⟨shown, Plan.comesTo_find.2 h, Plan.comesTo_done.2 rfl⟩

/-- A plain value is read as it is, and no expression is needed for it. -/
theorem Value.Plain.comesTo (hp : value.Plain) (hd : value.Distinct) (hS : S.FindsIn document base)
    (hl : locate document place base = .static place value inner) (hlevels : value.depth ≤ levels) :
    (Plan.descend fresh levels (.ofLocated (.static place value inner))).ComesTo S valueOf
      (some value) := by
  induction hp generalizing place inner levels with
  | null | bool | num | str =>
    simp only [Found.ofLocated, Plan.descend]
    exact Plan.comesTo_done.2 rfl
  | @arr items parts reached ih =>
    obtain _ | levels := levels
    · simp [depth] at hlevels
    have hitem (i : Nat) (item : Value) (hi : items[i]? = some item) :
        (Plan.itemPart fresh levels (place.child (toString i))).ComesTo S valueOf item := by
      have hmem : item ∈ items := List.mem_of_getElem? hi
      rcases locate_item hl hi with ⟨-, hchild⟩ | ⟨hf, hchild⟩
      · have hdepth := depth_le_depthItems hmem
        have hpart : (Plan.descend fresh levels (S.find (place.child (toString i)))).ComesTo S valueOf
            (some item) := by
          rw [hS, hchild]
          exact ih item hmem (hd.of_getElem? hi) hchild (by rw [depth] at hlevels; omega)
        exact comesTo_itemPart hpart
      · obtain rfl := reached i item hi hf
        have hpart : (Plan.descend fresh levels (S.find (place.child (toString i)))).ComesTo S valueOf
            none := by
          rw [hS, hchild, Found.ofLocated, Plan.descend]
          exact Plan.comesTo_done.2 rfl
        exact comesTo_itemPart hpart
    have hitems : (Plan.gather (Plan.itemPart fresh levels) (Found.itemsOf place items)).ComesTo S valueOf
        items := by
      apply comesTo_gather
      rw [Found.itemsOf, List.forall₂_iff_get]
      constructor
      · simp
      · intro i _ hi
        simpa using hitem i items[i] (List.getElem?_eq_getElem hi)
    exact Plan.comesTo_bind.2 ⟨items, hitems, Plan.comesTo_done.2 rfl⟩
  | @obj members bare parts ih =>
    obtain _ | levels := levels
    · simp [depth] at hlevels
    have hmember (e : String × Value) (he : e ∈ members) :
        (Plan.slotPart fresh levels (e.1, place.child e.1)).ComesTo S valueOf e := by
      have hlookup := Assoc.lookup_of_mem hd.keys he
      have hchild := locate_member hl bare hlookup
      have hdepth := depth_le_depthMembers he
      have hpart : (Plan.descend fresh levels (S.find (place.child e.1))).ComesTo S valueOf
          (some e.2) := by
        rw [hS, hchild]
        exact ih e he (hd.of_lookup hlookup) hchild (by rw [depth] at hlevels; omega)
      exact comesTo_slotPart hpart
    have hmembers : (Plan.gather (Plan.slotPart fresh levels) (Found.slotsOf place inner members)).ComesTo S
        valueOf members := by
      apply comesTo_gather
      rw [slotsOf_of_bare bare hd.keys, List.forall₂_map_left_iff, List.forall₂_same]
      exact hmember
    refine Plan.comesTo_bind.2 ⟨members, hmembers, Plan.comesTo_done.2 ?_⟩
    rw [Assoc.ofList_of_nodup hd.keys]

end Shown

namespace Request

variable {request : Request σ} {w : World σ} {left levels : Nat} {fresh : Bool} {place : Path}
  {value : Value} {items : List Value} {members : Members} {inner : Context}

/-- An array is shown with what its items are shown as. -/
theorem yields_list {evaluate : Evaluator σ} (hev : request.Steadily evaluate) {paths : List Path}
    {k : Nat} {shown : Option Value} (h : (request.follow evaluate
      (Plan.descend fresh (levels + 1) (.list paths k))).Yields w shown) :
    ∃ values, shown = some (.arr values) ∧ List.Forall₂ (fun path v =>
      ∃ part : Option Value, v = part.getD .null ∧ (request.follow evaluate
        (Plan.descend fresh levels (request.foundAt w path))).Yields w part) paths values := by
  obtain ⟨values, rfl, hgather⟩ := yields_map h
  refine ⟨values, rfl, (yields_gather hev hgather).imp fun path v hitem => ?_⟩
  obtain ⟨part, hpart, hfind⟩ := yields_map hitem
  exact ⟨part, hpart, yields_find hfind⟩

theorem yields_missing {evaluate : Evaluator σ} {part : Option Value}
    (h : (request.follow evaluate (Plan.descend fresh levels (.ofLocated .missing))).Yields w part) :
    part = none := by
  rw [Found.ofLocated, Plan.descend] at h
  exact yields_done h

/-- What is shown as it is stored is plain. -/
theorem plain_of_yields (hd : value.Distinct)
    (hl : locate w.document place (w.context.merge request.context) = .static place value inner)
    (hlevels : value.depth ≤ levels) (h : (request.follow (request.evaluate left)
      (Plan.descend fresh levels (.ofLocated (.static place value inner)))).Yields w (some value)) :
    value.Plain := by
  -- a part that is shown as `null` because there is nothing is `null`
  have hpart {v : Value} {part : Option Value} (hv : v = part.getD .null)
      (hplain : part = some v → v.Plain) : v.Plain := by
    cases part with
    | none =>
      obtain rfl : v = .null := hv
      exact .null
    | some u => exact hplain (congrArg some hv.symm)
  induction hd generalizing place inner levels with
  | null => exact .null
  | bool b => exact .bool b
  | num n => exact .num n
  | str s => exact .str s
  | @arr items parts ih =>
    obtain _ | levels := levels
    · simp [Value.depth] at hlevels
    obtain ⟨values, hvalues, hitems⟩ := yields_list (request.evaluate_steady left) h
    obtain rfl : items = values := by simpa using hvalues
    have hitem (i : Nat) (item : Value) (hi : items[i]? = some item) :
        ∃ part : Option Value, item = part.getD .null ∧ (request.follow (request.evaluate left)
          (Plan.descend fresh levels (request.foundAt w (place.child (toString i))))).Yields w part := by
      have hpath : (Found.itemsOf place items)[i]? = some (place.child (toString i)) := by
        have hlt := (List.getElem?_eq_some_iff.1 hi).1
        simp [Found.itemsOf, hlt]
      obtain ⟨item', hi', hshown⟩ := exists_of_forall₂ hitems hpath
      obtain rfl := Option.some.inj (hi.symm.trans hi')
      exact hshown
    apply Value.Plain.arr
    · intro item hm
      obtain ⟨i, hi⟩ := List.getElem?_of_mem hm
      obtain ⟨part, hv, hyields⟩ := hitem i item hi
      apply hpart hv
      rintro rfl
      rcases locate_item hl hi with ⟨-, hchild⟩ | ⟨-, hchild⟩
      · have hdepth := Value.depth_le_depthItems hm
        rw [foundAt, hchild] at hyields
        exact ih item hm hchild (by rw [Value.depth] at hlevels; omega) hyields
      · rw [foundAt, hchild] at hyields
        cases yields_missing hyields
    · intro i item hi hf
      obtain ⟨part, hv, hyields⟩ := hitem i item hi
      rcases locate_item hl hi with ⟨hfits, -⟩ | ⟨-, hchild⟩
      · rw [hf] at hfits
        cases hfits
      · rw [foundAt, hchild] at hyields
        rw [hv, yields_missing hyields, Option.getD_none]
  | @obj members hn parts ih =>
    obtain _ | levels := levels
    · simp [Value.depth] at hlevels
    obtain ⟨shown, hshown, hnames, hparts⟩ := shown_of_yields (Nat.succ_ne_zero _) h
    obtain rfl : members = shown := by simpa using hshown
    have hbare : Bare members := (slotsOf_names_iff hn).1 hnames.symm
    rw [slotsOf_of_bare hbare hn, List.forall₂_map_left_iff, List.forall₂_same] at hparts
    refine .obj hbare fun e he => ?_
    obtain ⟨part, hmember, hyields⟩ := yields_slotPart (hparts e he)
    have hchild := locate_member hl hbare (Assoc.lookup_of_mem hn he)
    have hdepth := Value.depth_le_depthMembers he
    apply hpart (congrArg Prod.snd hmember)
    rintro rfl
    rw [foundAt, hchild] at hyields
    exact ih e he hchild (by rw [Value.depth] at hlevels; omega) hyields

/-- A read that needs only what is known is done at once. -/
theorem read_of_comesTo {path : Path} {shown : Option Value}
    (h : (Plan.resolve false path).ComesTo (request.memory w) (keptAccount w) shown) :
    request.read path false w = .done (.ok (shown.or request.fallback)) w := by
  obtain ⟨s, hdone⟩ : ∃ s, request.follow (request.evaluate request.options.maxDepth)
      (Plan.resolve false path) [] w = .done (.ok shown, s) w := follow_kept (Plan.reuses_resolve path) h []
  rw [read, hdone]
  rfl

/-- A read of a plain value is done at once. -/
theorem read_of_plain {path : Path} (hp : value.Plain) (hd : value.Distinct)
    (hl : locate w.document path (w.context.merge request.context) = .static place value inner) :
    request.read path false w = .done (.ok (some value)) w := by
  have hS : (request.memory w).FindsIn w.document (w.context.merge request.context) := fun _ => rfl
  have hplace := locate_place hl []
  rw [Path.append_nil] at hplace
  have hlevels : value.depth ≤ (Found.ofLocated (.static place value inner)).levels := by
    cases value with
    | obj | arr => exact Nat.le_add_right _ _
    | _ => exact Nat.le_refl 0
  have hcomes : (Plan.resolve false path).ComesTo (request.memory w) (keptAccount w) (some value) := by
    rw [Plan.resolve, Plan.comesTo_find, hS, hl]
    exact hp.comesTo hd hS hplace hlevels
  exact read_of_comesTo hcomes

theorem read_of_missing {path : Path}
    (hl : locate w.document path (w.context.merge request.context) = .missing) :
    request.read path false w = .done (.ok request.fallback) w := by
  have hS : (request.memory w).FindsIn w.document (w.context.merge request.context) := fun _ => rfl
  have hcomes : (Plan.resolve false path).ComesTo (request.memory w) (keptAccount w) none := by
    rw [Plan.resolve, Plan.comesTo_find, hS, hl]
    exact Plan.comesTo_done.2 rfl
  exact read_of_comesTo hcomes

/-- A static value that a read comes to as it is stored is plain. -/
theorem plain_of_read {path : Path} {w' : World σ} (hd : value.Distinct) (hn : request.fallback = none)
    (hl : locate w.document path (w.context.merge request.context) = .static place value inner)
    (h : (request.read path fresh w).Ends (.ok (some value)) w') : value.Plain := by
  obtain ⟨result, stack, hrun, hr⟩ := ends_read h
  cases result with
  | error fault => cases hr
  | ok shown =>
    obtain rfl : some value = shown := by
      have hshown := Except.ok.inj hr
      rwa [hn, Option.or_none] at hshown
    have hyields := yields_find ⟨_, _, _, _, rfl, rfl, hrun⟩
    have hplace := locate_place hl []
    rw [Path.append_nil] at hplace
    rw [foundAt, hl] at hyields
    refine plain_of_yields hd hplace ?_ hyields
    cases value with
    | obj | arr => exact Nat.le_add_right _ _
    | _ => exact Nat.le_refl 0

end Request

/-- What holds of the keys of a document holds of those of a value in it. -/
theorem Value.Keyed.of_walk {P : List String → Prop} {current value : Value} {path place : Path}
    {context inner : Context} {segments : List String} (h : current.Keyed P)
    (hw : walk current path context segments = .static place value inner) : value.Keyed P := by
  induction segments generalizing current path context with
  | nil =>
    cases hw
    exact h
  | cons segment rest ih =>
    rcases walk_cons_cases current context segment with he | ⟨key, text, he, hk⟩ | ⟨key, child, he, hx⟩
    · rw [walk_cons_none he] at hw
      cases hw
    · rw [walk_cons_expression he hk] at hw
      cases hw
    · rw [walk_cons_static he hx] at hw
      refine ih ?_ hw
      have hchild := (enter?_child he).1
      cases h with
      | arr parts =>
        obtain ⟨i, -, hi⟩ := Option.bind_eq_some_iff.1 hchild
        exact parts child (List.mem_of_getElem? hi)
      | obj keys parts => exact parts _ (Assoc.mem_of_lookup hchild)
      | _ => cases hchild

namespace Tree

variable {t : Tree σ} {base path : Path} {text : String} {v : Value}

/-- A read without options comes to a value at once, whatever resolvers there are: none of them is
called, and the world stays as it is. -/
def GivesAtOnce (t : Tree σ) (base : Path) (text : String) (v : Option Value) : Prop :=
  ∀ registry, ∃ t', (t.withRegistry registry).get base text .default = (t', some (.ok v)) ∧
    t'.world = t.world

/-- A path runs into an expression. -/
def MeetsExpression (t : Tree σ) (path : Path) : Prop :=
  ∃ site, locate t.document path t.context = .expression site

theorem fieldAt_eq_value (h : t.fieldAt path = .value v) :
    (∃ site entry, locate t.document path t.context = .expression site ∧ site.rest = [] ∧
      t.world.cache.lookup (Request.keyOf site) = some entry ∧ entry.value = v) ∨
    ∃ place inner, locate t.document path t.context = .static place v inner := by
  unfold fieldAt at h
  split at h
  · cases h
  · next place value inner hl =>
    split at h
    · cases h
    · obtain rfl := Field.value.inj h
      exact .inr ⟨place, inner, hl⟩
  · next site hl =>
    split at h
    · next entry hentry =>
      split at h
      · next hrest => exact .inl ⟨site, entry, hl, List.isEmpty_iff.1 hrest, hentry, Field.value.inj h⟩
      · cases h
    · cases h

theorem fieldAt_eq_absent (h : t.fieldAt path = .absent) :
    locate t.document path t.context = .missing := by
  unfold fieldAt at h
  split at h
  · next hl => exact hl
  · split at h <;> cases h
  · split at h
    · split at h <;> cases h
    · cases h

/-- In every state that a tree comes to, where no read of the path without options is under way: what a
field shows of a path that runs into an expression is given by a read at once, without a call of a
resolver. Of a static value the same holds if it is plain, and otherwise no read gives it. Where a field is
absent, a read gives nothing, and at once. -/
theorem field_read {document : Value} {options : Options σ} {host : σ} (hd : document.Distinct)
    {acts : List (Act σ)} (ha : ∀ a ∈ acts, a.Writes List.Nodup)
    (reached : t = ((Traffic.idle (ofDocument document options host)).run acts).tree)
    (names : base.resolve text = .ok path)
    (alone : t.inflight.lookup (t.readKey path .default) = none) :
    (∀ v, t.field base text = .value v →
      (t.MeetsExpression path ∨ v.Plain → t.GivesAtOnce base text (some v)) ∧
      ((∃ t', t.Gives base text .default (.ok (some v)) t') → t.MeetsExpression path ∨ v.Plain)) ∧
    (t.field base text = .absent → t.GivesAtOnce base text none) := by
  have hdistinct : t.document.Distinct := reached ▸ Traffic.distinct_run options host hd ha
  have hfield : t.field base text = t.fieldAt path := by rw [field, names]
  -- what a read in the tree is done with at once is given at once
  have honce {shown : Option Value} (h : ∀ registry,
      ((t.withRegistry registry).request .default).read path false t.world = .done (.ok shown) t.world) :
      t.GivesAtOnce base text shown := fun registry =>
    get_of_unjoined (t := t.withRegistry registry) (fun _ => alone) names (h registry)
  rw [hfield]
  constructor
  · intro v hv
    rcases fieldAt_eq_value hv with ⟨site, entry, hl, hrest, hentry, rfl⟩ | ⟨place, inner, hl⟩
    · refine ⟨fun _ => honce fun registry => ?_, fun _ => .inl ⟨site, hl⟩⟩
      have hread : ((t.withRegistry registry).request .default).read path false t.world = _ :=
        Request.read_of_known hl hentry
      rw [hread, hrest]
      rfl
    · have hvalue : v.Distinct := hdistinct.of_walk hl
      have hstatic : ¬ t.MeetsExpression path := by
        rintro ⟨site, hl'⟩
        cases hl.symm.trans hl'
      constructor
      · intro h
        exact honce fun registry => Request.read_of_plain (h.resolve_left hstatic) hvalue hl
      · rintro ⟨t', hg⟩
        have hnone : (t.request .default).fallback = none := rfl
        exact .inr (Request.plain_of_read hvalue hnone hl (hg.ends names fun _ => alone).1)
  · intro h
    exact honce fun registry => Request.read_of_missing (fieldAt_eq_absent h)

/-- A list of one mapping. -/
def listOf (key : String) (value : Value) : Value :=
  .arr [.obj [(key, value)]]

/-- A tree with a list and an expression for it, which has been read. -/
def quotedList : Tree Unit :=
  ((Traffic.idle (ofDocument (.obj [("a", listOf "x" .null), (".e", .str "${a}")]) .default ())).run
    [.start .root "e" .default]).tree

/-- What is shown of the list and of the expression is what is read, and what is absent is not found. -/
theorem quoted_list_read : quotedList.GivesAtOnce .root "a" (some (listOf "x" .null)) ∧
    quotedList.GivesAtOnce .root "e" (some (listOf "x" .null)) ∧
    quotedList.GivesAtOnce .root "b" none := by
  have hd : (Value.obj [("a", listOf "x" .null), (".e", .str "${a}")]).Distinct := by
    simp [listOf, Value.Distinct, Value.Keyed.null]
  have ha : ∀ a ∈ [Act.start (σ := Unit) .root "e" .default], a.Writes List.Nodup := by
    simp [Act.Writes]
  have hplain : (listOf "x" .null).Plain := by
    apply Value.Plain.arr
    · intro v hv
      obtain rfl := List.mem_singleton.1 hv
      exact .obj (by decide) (by simp [Value.Plain.null])
    · intro i v hi hf
      obtain ⟨hlt, -⟩ := List.getElem?_eq_some_iff.1 hi
      obtain rfl : i = 0 := Nat.lt_one_iff.1 hlt
      cases hf
  have hmeets : quotedList.MeetsExpression ⟨["e"]⟩ := ⟨⟨⟨[".e"]⟩, "${a}", .empty, []⟩, by cbv⟩
  have hlist : quotedList.field .root "a" = .value (listOf "x" .null) := by cbv
  have hkept : quotedList.field .root "e" = .value (listOf "x" .null) := by cbv
  have habsent : quotedList.field .root "b" = .absent := by cbv
  have hread (name : String) (hname : Path.root.resolve name = .ok ⟨[name]⟩)
      (alone : quotedList.inflight.lookup (quotedList.readKey ⟨[name]⟩ .default) = none) :=
    field_read hd ha rfl hname alone
  refine ⟨?_, ?_, ?_⟩
  · exact ((hread "a" (by decide) (by cbv)).1 _ hlist).1 (.inr hplain)
  · exact ((hread "e" (by decide) (by cbv)).1 _ hkept).1 (.inl hmeets)
  · exact (hread "b" (by decide) (by cbv)).2 habsent

def slowCounting : Options Workbench :=
  { (Options.default : Options Workbench) with
    registry := .ofList [("count", Workbench.count), ("slow", Workbench.slow)] }

/-- An expression that is waited for since before it was evaluated anew. -/
def overtaken : Tree Workbench :=
  ((Traffic.idle (ofDocument (.obj [(".e", .str "${slow(1, count())}")]) slowCounting .empty)).run
    [.start .root "e" .default, .start .root "e" anew, .poll 1]).tree

/-- A list with an expression in it is shown as it is stored, but read with the value of the expression. And
where an expression is waited for, a read joins that evaluation, whatever is kept by now. -/
theorem field_passed_by :
    ((ofDocument (.obj [("a", listOf ".x" (.str "${1}"))]) .default ()).field .root "a" =
        .value (listOf ".x" (.str "${1}")) ∧
      ((ofDocument (.obj [("a", listOf ".x" (.str "${1}"))]) .default ()).get .root "a" .default).2 =
        some (.ok (some (listOf "x" (.num (.int 1)))))) ∧
    overtaken.field .root "e" = .value (.num (.int 2)) ∧
      (overtaken.get .root "e" .default).2 = some (.ok (some (.num (.int 1)))) := by
  refine ⟨⟨?_, ?_⟩, ?_, ?_⟩
  · cbv
  · cbv
  · cbv
  · cbv

end Tree

end LiveDoc
