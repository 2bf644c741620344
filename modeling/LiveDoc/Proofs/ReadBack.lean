import LiveDoc.Proofs.ChangedPaths
import LiveDoc.Proofs.Landing
import Mathlib

/-! # Reading back what was written

A walk along the path of a write comes to the written value exactly if it enters on its way what the
write has entered, and if the last segment wins the slot that it has filled. On the way the two differ only
below an item of an array that declares a context: a walk takes the context up, a write does not. A walk
that does not come back finds what stood there before, and so does a walk beside the path.
-/

namespace LiveDoc

/-- What a walk has come to is the value that a segment names at a place. -/
def Located.Holds (place : Path) (segment : String) (value : Value) (l : Located) : Prop :=
  if isExpression segment value then
    ∃ text context, value = .str text ∧ l = .expression ⟨place, text, context, []⟩
  else
    ∃ context, l = .static place value context

/-- A walk enters on its way what a write enters. It takes up the contexts that items declare. -/
def Agrees (context asked : Context) (current : Value) : List String → Prop
  | [] | [_] => True
  | segment :: next :: rest =>
    enter? current segment asked = enter? current segment context ∧
      match descent .root context current segment with
      | .ok d => Agrees d.context (asked.merge (Context.own d.child)) d.child (next :: rest)
      | .error _ => True

/-- A walk comes back to what a write has put down: it enters on its way what the write enters, and the
last segment wins the slot that the write has filled. -/
def ReadsBack (value : Value) (context asked : Context) (current : Value) : List String → Prop
  | [] => True
  | [segment] => ∀ members, current = .obj members →
    selectKey (fillSlot members segment value) segment asked = some segment
  | segment :: next :: rest =>
    enter? current segment asked = enter? current segment context ∧
      match descent .root context current segment with
      | .ok d => ReadsBack value d.context (asked.merge (Context.own d.child)) d.child (next :: rest)
      | .error _ => True

/-- A segment names its key exactly, or a mapping has no key of its slot but its two spellings. -/
def FillsAlone (segment : String) (receiver : Value) : Prop :=
  isExact segment = true ∨ ∀ members, receiver = .obj members →
    ∀ key ∈ members.map (·.1), slotName key = slotName segment → key = segment ∨ key = counterpart segment

section

variable {value current left below : Value} {path : Path} {context asked : Context}
  {segment next : String} {rest : List String} {d : Descent}

theorem agrees_cons_cons (h : Enters context current segment d) :
    Agrees context asked current (segment :: next :: rest) ↔
      enter? current segment asked = enter? current segment context ∧
        Agrees d.context (asked.merge (Context.own d.child)) d.child (next :: rest) := by
  rw [Agrees, descent_eq_ok.2 h]

theorem readsBack_cons_cons (h : Enters context current segment d) :
    ReadsBack value context asked current (segment :: next :: rest) ↔
      enter? current segment asked = enter? current segment context ∧
        ReadsBack value d.context (asked.merge (Context.own d.child)) d.child (next :: rest) := by
  rw [ReadsBack, descent_eq_ok.2 h]

theorem selectKey_ne_contextKey {members : Members} {key : String}
    (h : selectKey members segment context = some key) (hs : segment ≠ contextKey) :
    key ≠ contextKey := by
  rintro rfl
  by_cases he : isExact segment
  · rw [selectKey, if_pos he] at h
    split at h
    · exact hs (Option.some.inj h)
    · cases h
  · have hslot := (selectKey_eq_some h).2
    rw [slotName_of_bare (Bool.eq_false_iff.2 he), show slotName contextKey = contextKey by decide]
      at hslot
    exact hs hslot.symm

/-- On its way a write leaves the contexts that mappings declare. -/
theorem Enters.own_rebuild (h : Enters context current segment d) (hs : segment ≠ contextKey)
    (below : Value) : Context.own (d.rebuild below) = Context.own current := by
  cases h with
  | member hk =>
    simp only [Context.own, Context.ofMembers, Assoc.lookup_put,
      if_neg (selectKey_ne_contextKey hk hs).symm]
  | created => simp only [Context.own, Context.ofMembers, Assoc.lookup_put, if_neg hs.symm]
  | item => rfl

/-- A walk goes on through what a write has rebuilt if it would have entered what the write did. -/
theorem Enters.enter?_rebuild (h : Enters context current segment d) (below : Value) :
    enter? (d.rebuild below) segment asked = some (wayOn context current segment, below) ↔
      enter? current segment asked = enter? current segment context := by
  cases h with
  | @member members segment key child hs hm hl =>
    rw [wayOn_of_selected hs, enter?_obj, selectKey_put hl, Assoc.lookup_put, if_pos rfl,
      enter?_obj.2 ⟨hs, hl⟩, enter?_obj]
    simp [hl]
  | @created members segment hs hr =>
    rw [wayOn_of_created hs, enter?_obj, Assoc.lookup_put, if_pos rfl, enter?_obj_eq_none_iff.2 hs,
      enter?_obj_eq_none_iff]
    simp only [and_true]
    cases he : isExact segment with
    | true =>
      have hl := lookup_of_selectKey_eq_none hs
      simp [selectKey, he, hl, Assoc.lookup_put]
    | false =>
      rw [selectKey_put_created he hs]
      cases hk : selectKey members segment asked with
      | none => simp
      | some key => simp [selectKey_ne hs hk]
  | item hi hc =>
    obtain ⟨hlt, -⟩ := List.getElem?_eq_some_iff.1 hc
    simp only [enter?_arr, wayOn, hi, Option.bind_some, List.getElem?_set_self hlt, Option.map_some]

/-- A walk that would not have entered what a write did goes on as before. -/
theorem Enters.enter?_rebuild_of_ne (h : Enters context current segment d) (below : Value)
    (hne : enter? current segment asked ≠ enter? current segment context) :
    enter? (d.rebuild below) segment asked = enter? current segment asked := by
  cases h with
  | @member members segment key child hs hm hl =>
    rw [enter?, enter?, selectKey_put hl]
    cases hk : selectKey members segment asked with
    | none => rfl
    | some key' =>
      have hkey : key' ≠ key := by
        rintro rfl
        exact hne ((enter?_obj.2 ⟨hk, hl⟩).trans (enter?_obj.2 ⟨hs, hl⟩).symm)
      rw [Option.bind_some, Option.bind_some, Assoc.lookup_put, if_neg hkey]
  | @created members segment hs hr =>
    cases hk : selectKey members segment asked with
    | none =>
      exact absurd ((enter?_obj_eq_none_iff.2 hk).trans (enter?_obj_eq_none_iff.2 hs).symm) hne
    | some key =>
      have hbare : isExact segment = false := by
        by_contra he
        rw [Bool.not_eq_false] at he
        rw [selectKey, if_pos he, lookup_of_selectKey_eq_none hs] at hk
        cases hk
      rw [enter?, enter?, selectKey_put_created hbare hs, hk, Option.some_or, Option.bind_some,
        Option.bind_some, Assoc.lookup_put, if_neg (selectKey_ne hs hk)]
  | item => exact absurd rfl hne

/-- A walk goes into what a write has entered, unless that is a new mapping. -/
theorem Enters.walk_eq (h : Enters context current segment d)
    (he : enter? current segment asked = enter? current segment context) (hnew : d.child ≠ .obj [])
    (place : Path) (rest : List String) : walk current place asked (segment :: rest) =
      walk d.child (place.child (wayOn context current segment))
        (asked.merge (Context.own d.child)) rest := by
  cases h with
  | member hs hm hl =>
    rw [wayOn_of_selected hs]
    exact walk_cons_static (he.trans (enter?_obj.2 ⟨hs, hl⟩)) (isExpression_of_not_marked hm _) rest
  | created => exact absurd rfl hnew
  | @item items segment i child hi hl =>
    have hm : isMarked segment = false := (isExact_eq_false (isExact_of_index? hi)).2
    exact walk_cons_static (enter?_item hi hl asked) (isExpression_of_not_marked hm _) rest

/-- What a write goes through on its way is no expression. -/
theorem Enters.isExpression_rebuild (h : Enters context current segment d)
    (hb : writeFrom value path d.context d.child (next :: rest) = (below, .ok ())) :
    isExpression (wayOn context current segment) below = false := by
  cases h with
  | member hs hm => exact isExpression_of_not_marked (by rwa [wayOn_of_selected hs]) below
  | created =>
    obtain ⟨members, rfl⟩ := (writeFrom_obj_nil hb).obj
    exact isExpression_obj _ _
  | @item items segment i child hi hc =>
    have hm : isMarked (wayOn context (.arr items) segment) = false :=
      (isExact_eq_false (isExact_of_index? hi)).2
    exact isExpression_of_not_marked hm below

/-- What lies below a place is come to through the place. -/
theorem Located.Holds.enters {key last : String} {keys segments : List String}
    (h : (walk current path context (segment :: segments)).Holds (path.append (key :: keys)) last
      value) : ∃ child, enter? current segment context = some (key, child) := by
  have hkey (key' : String) (keys' : List String)
      (hp : path.append (key :: keys) = (path.child key').append keys') : key' = key := by
    simp only [Path.append, Path.child, Path.mk.injEq, List.append_assoc, List.singleton_append,
      List.append_cancel_left_eq, List.cons.injEq] at hp
    exact hp.1.symm
  have hplace : (∃ site, walk current path context (segment :: segments) = .expression site ∧
      site.path = path.append (key :: keys)) ∨
      ∃ c, walk current path context (segment :: segments) =
        .static (path.append (key :: keys)) value c := by
    unfold Located.Holds at h
    split at h
    · obtain ⟨text, c, -, hw⟩ := h
      exact .inl ⟨_, hw, rfl⟩
    · exact .inr h
  rcases walk_cons_cases current context segment with he | ⟨key', text, he, hk⟩ | ⟨key', child, he, hx⟩
  · rw [walk_cons_none he] at hplace
    rcases hplace with ⟨_, h, -⟩ | ⟨_, h⟩ <;> cases h
  · rw [walk_cons_expression he hk] at hplace
    rcases hplace with ⟨_, h, hp⟩ | ⟨_, h⟩
    · cases h
      exact ⟨_, hkey key' [] (hp.symm.trans (by simp [Path.append])) ▸ he⟩
    · cases h
  · rw [walk_cons_static he hx] at hplace
    rcases hplace with ⟨site, h, hp⟩ | ⟨_, h⟩
    · obtain ⟨keys', hp', -⟩ := walk_expression h
      exact ⟨child, hkey key' keys' (hp.symm.trans hp') ▸ he⟩
    · obtain ⟨keys', hp', -⟩ := walk_static h
      exact ⟨child, hkey key' keys' hp' ▸ he⟩

/-! ## The last segment -/

/-- A filled slot without other keys is selected by its segment, whatever the context. -/
theorem selectKey_fillSlot {members : Members} (hd : (members.map (·.1)).Nodup)
    (ha : FillsAlone segment (.obj members)) (value : Value) (asked : Context) :
    selectKey (fillSlot members segment value) segment asked = some segment := by
  by_cases he : isExact segment
  · rw [selectKey, if_pos he, lookup_fillSlot_self]
    rfl
  · have hbare := slotName_of_bare (Bool.eq_false_iff.2 he)
    have hkeys := ha.resolve_left he members rfl
    have honly (key : String) (hk : key ∈ (fillSlot members segment value).map (·.1))
        (hslot : slotName key = segment) : key = segment := by
      by_contra hne
      rw [← Assoc.isSome_lookup_iff] at hk
      obtain ⟨hother, hl⟩ := lookup_fillSlot_of_ne hd hne hk
      rw [hl, Assoc.isSome_lookup_iff] at hk
      exact (hkeys key hk (hslot.trans hbare.symm)).elim hne hother
    have hmem : segment ∈ (fillSlot members segment value).map (·.1) :=
      Assoc.isSome_lookup_iff.1 (by rw [lookup_fillSlot_self]; rfl)
    rw [selectKey, if_neg he]
    obtain ⟨key, hk⟩ := Option.isSome_iff_exists.1
      (isSome_resolveVariant asked (Bool.eq_false_iff.2 he) hmem)
    obtain ⟨hin, hslot⟩ := resolveVariant_eq_some hk
    rw [hk, honly key hin hslot]

theorem readsBack_of_exact (he : isExact segment = true) :
    ReadsBack value context asked current [segment] := by
  rintro members -
  rw [selectKey, if_pos he, lookup_fillSlot_self]
  rfl

/-- In a new mapping nothing stands in the way of a walk. -/
theorem readsBack_obj_nil (segments : List String) :
    ReadsBack value context asked (.obj []) segments := by
  induction segments generalizing context asked with
  | nil => trivial
  | cons segment rest ih =>
    cases rest with
    | nil =>
      rintro _ ⟨⟩
      have halone : FillsAlone segment (.obj []) := .inr fun _ h key hk => by
        cases h
        exact absurd hk List.not_mem_nil
      have hkeys : (([] : Members).map (·.1)).Nodup := List.nodup_nil
      exact selectKey_fillSlot hkeys halone value asked
    | cons next rest =>
      refine ⟨by simp [enter?], ?_⟩
      cases hd : descent .root context (.obj []) segment with
      | error e => trivial
      | ok d =>
        cases descent_eq_ok.1 hd with
        | member hs => simp at hs
        | created => exact ih

theorem enter?_writeLast_iff (h : writeLast value path current segment = .ok left) :
    enter? left segment asked = some (segment, value) ↔
      ReadsBack value context asked current [segment] := by
  rcases writeLast_eq_ok.1 h with ⟨members, rfl, rfl⟩ | ⟨items, i, rfl, -, hleft⟩
  · rw [enter?_obj, and_iff_left (lookup_fillSlot_self ..)]
    exact ⟨fun h _ he => Value.obj.inj he ▸ h, fun h => h _ rfl⟩
  · have hchild := child?_of_writeLast h
    refine iff_of_true ?_ nofun
    rcases hleft with ⟨-, rfl⟩ | ⟨-, rfl⟩ <;> exact congrArg (Option.map (segment, ·)) hchild

/-- A write of a bare segment leaves the contexts that are declared beside it. -/
theorem own_writeLast (h : writeLast value path current segment = .ok left)
    (hb : isExact segment = false) (hs : segment ≠ contextKey) :
    Context.own left = Context.own current := by
  refine (writeLast_changed h (spelled_of_not_marked (isExact_eq_false hb).2)).own_eq ?_
  unfold Place.ofStep
  split
  · exact id
  · rwa [slotName_of_bare hb]

/-- A segment that has not won the slot it filled is passed over for a key that names itself exactly and
that stood there before. -/
theorem exists_key_of_not_readsBack (h : writeLast value path current segment = .ok left)
    (hd : current.Distinct) (hn : ¬ ReadsBack value context asked current [segment]) :
    ∃ key, slotName key = slotName segment ∧
      enter? left segment asked = enter? current key asked := by
  have hbare : isExact segment = false := Bool.eq_false_iff.2 fun he => hn (readsBack_of_exact he)
  rcases writeLast_eq_ok.1 h with ⟨members, rfl, rfl⟩ | ⟨items, i, rfl, -, -⟩
  · have hmem : segment ∈ (fillSlot members segment value).map (·.1) :=
      Assoc.isSome_lookup_iff.1 (by rw [lookup_fillSlot_self]; rfl)
    obtain ⟨key, hk⟩ := Option.isSome_iff_exists.1 (isSome_resolveVariant asked hbare hmem)
    have hsel : selectKey (fillSlot members segment value) segment asked = some key := by
      rwa [selectKey, if_neg (Bool.eq_false_iff.1 hbare)]
    have hne : key ≠ segment := by
      rintro rfl
      exact hn fun _ he => Value.obj.inj he ▸ hsel
    obtain ⟨hsome, hslot⟩ := selectKey_eq_some hsel
    have hexact : isExact key = true := by
      by_contra he
      refine hne ?_
      rwa [slotName_of_bare (Bool.eq_false_iff.2 he), slotName_of_bare hbare] at hslot
    obtain ⟨-, hl⟩ := lookup_fillSlot_of_ne hd.keys hne hsome
    refine ⟨key, hslot, ?_⟩
    rw [enter?, enter?, hsel, selectKey, if_pos hexact, ← hl, if_pos hsome, Option.bind_some,
      Option.bind_some, hl]
  · refine absurd (fun _ he => ?_) hn
    cases he

theorem holds_of_enter? {key : String} (h : enter? current segment asked = some (key, value))
    (place : Path) : (walk current place asked [segment]).Holds (place.append [key]) key value := by
  unfold Located.Holds
  cases hx : isExpression key value with
  | true =>
    obtain ⟨hm, hv⟩ := Bool.and_eq_true_iff.1 hx
    cases value with
    | str text => exact ⟨text, asked, rfl, walk_cons_expression h hm []⟩
    | _ => cases hv
  | false => exact ⟨_, walk_cons_static h hx []⟩

end

section

variable {value current left : Value} {path : Path} {context : Context} {segment next : String}
  {rest segments : List String}

/-- Where a write enters something after its first segment, the context declared there stays. -/
theorem own_of_writeFrom (hw : writeFrom value path context current (segment :: next :: rest) =
    (left, .ok ())) (hc : segment ≠ contextKey) : Context.own left = Context.own current := by
  obtain ⟨d, below, hent, -, rfl⟩ := writeFrom_cons_cons_eq_ok.1 hw
  exact hent.own_rebuild hc below

/-- A write by whose path a walk does not come back leaves the contexts that are declared around it. -/
theorem own_of_not_readsBack (hw : writeFrom value path context current segments = (left, .ok ()))
    (hc : contextKey ∉ segments) {asked : Context}
    (hn : ¬ ReadsBack value context asked current segments) : Context.own left = Context.own current := by
  match segments with
  | [] => exact absurd trivial hn
  | [segment] =>
    have hbare : isExact segment = false := Bool.eq_false_iff.2 fun he => hn (readsBack_of_exact he)
    exact own_writeLast (writeFrom_singleton_eq_ok.1 hw) hbare (List.ne_of_not_mem_cons hc).symm
  | segment :: next :: rest => exact own_of_writeFrom hw (List.ne_of_not_mem_cons hc).symm

/-- A walk takes up what is declared there after a write, which matters no more than what was declared
before. -/
theorem readsBack_own (hw : writeFrom value path context current segments = (left, .ok ()))
    (hc : contextKey ∉ segments) (asked : Context) :
    ReadsBack value context (asked.merge (Context.own left)) current segments ↔
      ReadsBack value context (asked.merge (Context.own current)) current segments := by
  by_cases hl : ReadsBack value context (asked.merge (Context.own left)) current segments
  · by_cases hr : ReadsBack value context (asked.merge (Context.own current)) current segments
    · exact iff_of_true hl hr
    · rw [own_of_not_readsBack hw hc hr]
  · rw [own_of_not_readsBack hw hc hl]

/-- Below a value, a walk along the path of a write comes to the written value exactly if it comes back by
what the write has entered to the slot that it has filled. -/
theorem walk_holds_iff {last : String}
    (hw : writeFrom value path context current segments = (left, .ok ()))
    (hl : segments.getLast? = some last) (hc : contextKey ∉ segments) (place : Path) (asked : Context) :
    (walk left place asked segments).Holds (place.append (writtenPlace context current segments)) last
      value ↔ ReadsBack value context asked current segments := by
  induction segments generalizing path place context asked current left with
  | nil => cases hl
  | cons segment rest ih =>
    cases rest with
    | nil =>
      obtain rfl : segment = last := by simpa using hl
      have hlast := writeFrom_singleton_eq_ok.1 hw
      rw [← enter?_writeLast_iff hlast]
      refine ⟨fun h => ?_, fun h => holds_of_enter? h place⟩
      obtain ⟨child, hchild⟩ := h.enters
      obtain rfl : child = value :=
        Option.some.inj ((enter?_child hchild).1.symm.trans (child?_of_writeLast hlast))
      exact hchild
    | cons next rest =>
      obtain ⟨d, below, hent, hb, rfl⟩ := writeFrom_cons_cons_eq_ok.1 hw
      rw [List.mem_cons, not_or] at hc
      rw [List.getLast?_cons_cons] at hl
      rw [writtenPlace_cons_cons hent, readsBack_cons_cons hent, ← hent.enter?_rebuild below]
      by_cases he : enter? (d.rebuild below) segment asked =
        some (wayOn context current segment, below)
      · have hplace : place.append (wayOn context current segment ::
            writtenPlace d.context d.child (next :: rest)) =
              (place.child (wayOn context current segment)).append
                (writtenPlace d.context d.child (next :: rest)) := by
          simp [Path.append, Path.child]
        rw [walk_cons_static he (hent.isExpression_rebuild hb), hplace, ih hb hl hc.2 _ _,
          readsBack_own hb hc.2]
        exact (and_iff_right he).symm
      · refine iff_of_false (fun h => ?_) fun h => he h.1
        obtain ⟨child, hchild⟩ := h.enters
        obtain rfl : child = below :=
          Option.some.inj ((enter?_child hchild).1.symm.trans (hent.child?_rebuild below))
        exact he hchild

/-- Below a value, a walk that does not come back to what was written finds what another path of the same
slots led to before. -/
theorem exists_walk_of_not_readsBack
    (hw : writeFrom value path context current segments = (left, .ok ())) (hd : current.Distinct)
    (hc : contextKey ∉ segments) (place : Path) {asked : Context}
    (hn : ¬ ReadsBack value context asked current segments) :
    ∃ others : List String, others.map slotName = segments.map slotName ∧
      walk left place asked segments = walk current place asked others := by
  induction segments generalizing path place context asked current left with
  | nil => exact absurd trivial hn
  | cons segment rest ih =>
    cases rest with
    | nil =>
      obtain ⟨key, hslot, he⟩ :=
        exists_key_of_not_readsBack (writeFrom_singleton_eq_ok.1 hw) hd hn
      exact ⟨[key], by rw [List.map_singleton, List.map_singleton, hslot], walk_congr he place []⟩
    | cons next rest =>
      obtain ⟨d, below, hent, hb, rfl⟩ := writeFrom_cons_cons_eq_ok.1 hw
      rw [List.mem_cons, not_or] at hc
      rw [readsBack_cons_cons hent, not_and] at hn
      by_cases he : enter? current segment asked = enter? current segment context
      · have hbelow := hn he
        rw [← readsBack_own hb hc.2] at hbelow
        have hown := own_of_not_readsBack hb hc.2 hbelow
        obtain ⟨others, hslots, hwalk⟩ := ih hb (hent.keyed_child keysLast_nodup hd) hc.2
          (place.child (wayOn context current segment)) hbelow
        refine ⟨segment :: others, by rw [List.map_cons, List.map_cons, hslots], ?_⟩
        rw [walk_cons_static ((hent.enter?_rebuild below).2 he) (hent.isExpression_rebuild hb), hwalk,
          hown]
        exact (hent.walk_eq he (fun hnil => hn he (hnil ▸ readsBack_obj_nil _)) place others).symm
      · exact ⟨_, rfl, walk_congr (hent.enter?_rebuild_of_ne below he) place _⟩

/-- Where nothing else competes for the slot that a write fills, a walk comes back if it enters what the
write has entered. -/
theorem readsBack_iff_agrees {last : String} (hl : segments.getLast? = some last)
    (hd : current.Distinct) (ha : FillsAlone last (receiver context current segments))
    (asked : Context) :
    ReadsBack value context asked current segments ↔ Agrees context asked current segments := by
  induction segments generalizing context asked current with
  | nil => cases hl
  | cons segment rest ih =>
    cases rest with
    | nil =>
      obtain rfl : segment = last := by simpa using hl
      refine iff_of_true ?_ trivial
      rintro members rfl
      exact selectKey_fillSlot hd.keys ha value asked
    | cons next rest =>
      cases hdescent : descent .root context current segment with
      | error e => rw [ReadsBack, Agrees, hdescent]
      | ok d =>
        have hent := descent_eq_ok.1 hdescent
        rw [receiver_cons_cons hent] at ha
        rw [List.getLast?_cons_cons] at hl
        rw [readsBack_cons_cons hent, agrees_cons_cons hent,
          ih hl (hent.keyed_child keysLast_nodup hd) ha]

/-- Below a value, a walk along the path of a write into a slot for which nothing else competes comes to the
written value exactly if it enters what the write has entered. -/
theorem walk_written_iff {last : String}
    (hw : writeFrom value path context current segments = (left, .ok ()))
    (hl : segments.getLast? = some last) (hd : current.Distinct)
    (ha : FillsAlone last (receiver context current segments)) (hc : contextKey ∉ segments)
    (place : Path) (asked : Context) :
    (walk left place asked segments).Holds (place.append (writtenPlace context current segments)) last
      value ↔ Agrees context asked current segments :=
  (walk_holds_iff hw hl hc place asked).trans (readsBack_iff_agrees hl hd ha asked)

end

/-- Where no array lies, a walk enters what a write enters. -/
theorem agrees_of_flat {current : Value} (hf : current.Flat) (context : Context)
    (segments : List String) : Agrees context context current segments := by
  induction segments generalizing context current with
  | nil => trivial
  | cons segment rest ih =>
    cases rest with
    | nil => trivial
    | cons next rest =>
      refine ⟨rfl, ?_⟩
      cases hd : descent .root context current segment with
      | error e => trivial
      | ok d =>
        have hent := descent_eq_ok.1 hd
        have hcontext : context.merge (Context.own d.child) = d.context := by
          cases hent with
          | member | created => rfl
          | item => nomatch hf
        show Agrees d.context (context.merge (Context.own d.child)) d.child (next :: rest)
        rw [hcontext]
        exact ih (hent.flat hf).2 d.context

/-- In a document without arrays, a walk comes back if nothing else competes for the slot. -/
theorem readsBack_of_flat {value current : Value} {context : Context} {segments : List String}
    (hf : current.Flat) (hd : current.Distinct) (ha : ∀ last, segments.getLast? = some last →
      FillsAlone last (receiver context current segments)) :
    ReadsBack value context context current segments := by
  cases hl : segments.getLast? with
  | none =>
    rw [List.getLast?_eq_none_iff.1 hl]
    trivial
  | some last =>
    exact (readsBack_iff_agrees hl hd (ha last hl) context).2 (agrees_of_flat hf context segments)

/-- A reading of the path of a write under the same context comes to what was written exactly if it comes
back by what the write has entered to the slot that it has filled. -/
theorem locate_holds_iff {document value left : Value} {path : Path} {context : Context} {last : String}
    (hw : writeFrom value .root (context.merge (Context.own document)) document path.segments =
      (left, .ok ())) (hl : path.last? = some last) (hc : contextKey ∉ path.segments) :
    let base := context.merge (Context.own document)
    (locate left path context).Holds ⟨writtenPlace base document path.segments⟩ last value ↔
      ReadsBack value base base document path.segments :=
  (walk_holds_iff hw hl hc .root (context.merge (Context.own left))).trans (readsBack_own hw hc context)

theorem locate_obj_iff {document left : Value} {members : Members} {path : Path} {context : Context}
    (hw : writeFrom (.obj members) .root (context.merge (Context.own document)) document path.segments =
      (left, .ok ())) (hc : contextKey ∉ path.segments) :
    let base := context.merge (Context.own document)
    (∃ c, locate left path context = .static ⟨writtenPlace base document path.segments⟩ (.obj members) c) ↔
      ReadsBack (.obj members) base base document path.segments := by
  intro base
  cases hl : path.last? with
  | none =>
    rw [List.getLast?_eq_none_iff.1 hl, writeFrom] at hw
    cases hw
  | some last =>
    have hholds := locate_holds_iff hw hl hc
    simp only [Located.Holds, isExpression_obj, Bool.false_eq_true, if_false] at hholds
    exact hholds

/-- A reading of the path of a write that does not come back finds what another path of the same slots
led to before. -/
theorem exists_locate_of_not_readsBack {document value left : Value} {path : Path} {context : Context}
    (hw : writeFrom value .root (context.merge (Context.own document)) document path.segments =
      (left, .ok ())) (hd : document.Distinct) (hc : contextKey ∉ path.segments)
    (hn : ¬ ReadsBack value (context.merge (Context.own document))
      (context.merge (Context.own document)) document path.segments) :
    ∃ other : Path, other.logical = path.logical ∧
      locate left path context = locate document other context := by
  have hown := own_of_not_readsBack hw hc hn
  obtain ⟨others, hslots, hwalk⟩ := exists_walk_of_not_readsBack hw hd hc .root hn
  refine ⟨⟨others⟩, congrArg Path.mk hslots, ?_⟩
  rw [locate, hown, hwalk, locate]

/-- A reading of the path of a write under the same context comes to what was written, at the place
where it was written, exactly if it enters on its way what the write has entered. So it does in every
document without arrays. -/
theorem locate_written_iff {document value left : Value} {path : Path} {context : Context}
    {last : String} (hd : document.Distinct) (hl : path.last? = some last)
    (hc : contextKey ∉ path.segments)
    (ha : FillsAlone last (receiver (context.merge (Context.own document)) document path.segments))
    (hw : write document path value context = (left, .ok ())) :
    let base := context.merge (Context.own document)
    ((locate left path context).Holds ⟨writtenPlace base document path.segments⟩ last value ↔
      Agrees base base document path.segments) ∧
    (document.Flat → Agrees base base document path.segments) := by
  intro base
  refine ⟨?_, fun hf => agrees_of_flat hf base path.segments⟩
  have hwrite := writeFrom_of_write hw
  have hwalk := walk_written_iff hwrite hl hd ha hc .root (context.merge (Context.own left))
  have hown : Agrees base (context.merge (Context.own left)) document path.segments ↔
      Agrees base base document path.segments := by
    obtain ⟨segments⟩ := path
    match segments with
    | [] => cases hl
    | [segment] => rfl
    | segment :: next :: rest =>
      obtain ⟨d, below, hent, -, rfl⟩ := writeFrom_cons_cons_eq_ok.1 hwrite
      rw [List.mem_cons, not_or] at hc
      rw [hent.own_rebuild (Ne.symm hc.1)]
  rw [← hown, ← hwalk]
  rfl

/-- A list of one entry, which has a menu in two languages and may declare a context. -/
def menus (declared : Members) : Value :=
  .obj [("l", .arr [.obj (declared ++
    [("m", .obj [("t", .str "a")]), ("m:es", .obj [("t", .str "b")])])])]

/-- Under a context for Spanish, the Spanish menu of an entry is written and read. -/
theorem locate_written_spanish :
    ∃ left, write (menus []) ⟨["l", "0", "m", "t"]⟩ (.str "c") (.ofList [("lang", "es")]) =
        (left, .ok ()) ∧
      (locate left ⟨["l", "0", "m", "t"]⟩ (.ofList [("lang", "es")])).Holds
        ⟨["l", "0", "m:es", "t"]⟩ "t" (.str "c") := by
  have hd : (menus []).Distinct := by simp [menus, Value.Distinct]
  have hw : (write (menus []) ⟨["l", "0", "m", "t"]⟩ (.str "c") (.ofList [("lang", "es")])).2 =
      .ok () := by cbv
  have hreceiver : receiver (Table.merge (.ofList [("lang", "es")]) (Context.own (menus [])))
      (menus []) ["l", "0", "m", "t"] = .obj [("t", .str "b")] := by cbv
  have hplace : writtenPlace (Table.merge (.ofList [("lang", "es")]) (Context.own (menus [])))
      (menus []) ["l", "0", "m", "t"] = ["l", "0", "m:es", "t"] := by cbv
  have hagrees : Agrees (Table.merge (.ofList [("lang", "es")]) (Context.own (menus [])))
      (Table.merge (.ofList [("lang", "es")]) (Context.own (menus []))) (menus [])
      ["l", "0", "m", "t"] := by cbv
  have halone : FillsAlone "t" (.obj [("t", .str "b")]) := by
    refine .inr ?_
    rintro members ⟨⟩ key hk -
    exact .inl (by simpa using hk)
  rcases hwrite : write (menus []) ⟨["l", "0", "m", "t"]⟩ (.str "c") (.ofList [("lang", "es")])
    with ⟨left, outcome⟩
  rw [hwrite] at hw
  obtain rfl : outcome = .ok () := hw
  refine ⟨left, rfl, ?_⟩
  rw [← hplace]
  exact (locate_written_iff hd rfl (by decide) (hreceiver ▸ halone) hwrite).1.2 hagrees

/-- An entry that declares itself Spanish is written as if it did not, but read as Spanish. -/
theorem locate_written_declared :
    (write (menus [("$context", .obj [("lang", .str "es")])]) ⟨["l", "0", "m", "t"]⟩ (.str "c")
        .empty).2 = .ok () ∧
      locate (write (menus [("$context", .obj [("lang", .str "es")])]) ⟨["l", "0", "m", "t"]⟩
        (.str "c") .empty).1 ⟨["l", "0", "m", "t"]⟩ .empty =
          .static ⟨["l", "0", "m:es", "t"]⟩ (.str "b") (.ofList [("lang", "es")]) := by
  constructor <;> cbv

/-! ## Beside a write -/

/-- A write by a bare path touches nothing beside it: in a document without arrays, whatever the path of a
reading is and whatever its context, the reading comes to the same unless one of the two paths leads to
or through the other. -/
theorem locate_beside_write {document value left : Value} {path other : Path} {context : Context}
    (hf : document.Flat) (hbare : ∀ segment ∈ path.segments, isExact segment = false)
    (hc : contextKey ∉ path.segments) (hw : write document path value context = (left, .ok ()))
    (hr : ¬ Path.Related path.logical other.logical) (asked : Context) :
    locate left other asked = locate document other asked := by
  have hslots : path.segments.map slotName = path.segments :=
    (List.map_congr_left fun segment hs => slotName_of_bare (hbare segment hs)).trans (List.map_id' _)
  have hspelled (segment : String) (hs : path.segments.getLast? = some segment) : Spelled segment :=
    spelled_of_not_marked (isExact_eq_false (hbare segment (List.mem_of_getLast? hs))).2
  have hchanged := writeFrom_changed_slot (writeFrom_of_write hw) hf
    (fun segment hs => hbare segment (List.dropLast_subset _ hs)) hspelled
  rw [hslots] at hchanged
  rw [Path.Related, Path.logical, hslots] at hr
  exact hchanged.locate_eq (not_meets_walkReads hc hr) asked

/-- A menu is created beside the Spanish one, in which an expression is read. -/
theorem locate_beside_write_spanish : ∃ left,
    write (.obj [("m:es", .obj [(".n", .str "${t}")])]) ⟨["m", "t"]⟩ (.str "a") .empty =
        (left, .ok ()) ∧
      locate left ⟨["m", "n"]⟩ (.ofList [("lang", "es")]) =
        .expression ⟨⟨["m:es", ".n"]⟩, "${t}", .ofList [("lang", "es")], []⟩ := by
  have hf : (Value.obj [("m:es", .obj [(".n", .str "${t}")])]).Flat :=
    .obj (by simpa using .obj (by simpa using .str _))
  have hw : (write (.obj [("m:es", .obj [(".n", .str "${t}")])]) ⟨["m", "t"]⟩ (.str "a") .empty).2 =
      .ok () := by cbv
  rcases hwrite : write (.obj [("m:es", .obj [(".n", .str "${t}")])]) ⟨["m", "t"]⟩ (.str "a") .empty
    with ⟨left, outcome⟩
  rw [hwrite] at hw
  obtain rfl : outcome = .ok () := hw
  refine ⟨left, rfl, ?_⟩
  rw [locate_beside_write hf (by decide) (by decide) hwrite (by decide)]
  cbv

end LiveDoc
