import LiveDoc.Proofs.Landing
import Mathlib

/-! # Undoing a write

A removal at the path of a write takes away what was written exactly if the write has gone on by its own
segments. A removal lets no variants compete, so it passes by what was written under another key.
-/

namespace LiveDoc

/-- Change what stands at a key. -/
def Assoc.modify {κ ν : Type} [DecidableEq κ] (key : κ) (f : ν → ν) (es : List (κ × ν)) :
    List (κ × ν) :=
  es.map fun e => if e.1 = key then (e.1, f e.2) else e

/-- A value without the entry or the item at a place. -/
def Value.without (v : Value) : List String → Value
  | [] => v
  | [key] =>
    match v with
    | .obj members => .obj (members.filter (·.1 != key))
    | .arr items =>
      match Numeral.index? key with
      | some i => .arr (items.eraseIdx i)
      | none => .arr items
    | _ => v
  | key :: next :: rest =>
    match v with
    | .obj members => .obj (Assoc.modify key (·.without (next :: rest)) members)
    | .arr items =>
      match Numeral.index? key with
      | some i => .arr (items.modify i (·.without (next :: rest)))
      | none => .arr items
    | _ => v

namespace Assoc

variable {κ ν : Type} [DecidableEq κ] {key : κ} {es : List (κ × ν)}

theorem lookup_modify_self (f : ν → ν) : (modify key f es).lookup key = (es.lookup key).map f := by
  unfold modify
  induction es with
  | nil => rfl
  | cons e rest ih =>
    obtain ⟨k, v⟩ := e
    by_cases hk : k = key
    · simp [hk]
    · simp [hk, List.lookup_cons, beq_eq_false_iff_ne.2 (Ne.symm hk), ih]

/-- Where no key stands twice, changing what stands at a key puts it there. -/
theorem modify_eq_put {value : ν} (h : (es.map (·.1)).Nodup) (hl : es.lookup key = some value)
    (f : ν → ν) : modify key f es = put key (f value) es := by
  unfold modify
  induction es with
  | nil => cases hl
  | cons e rest ih =>
    obtain ⟨k, v⟩ := e
    rw [List.map_cons, List.nodup_cons] at h
    by_cases hk : k = key
    · subst hk
      obtain rfl : v = value := by simpa using hl
      have hrest : (rest.map fun e => if e.1 = k then (e.1, f e.2) else e) = rest := by
        nth_rewrite 2 [← List.map_id rest]
        refine List.map_congr_left ?_
        intro e he
        exact if_neg fun hk => h.1 (List.mem_map.2 ⟨e, he, hk⟩)
      simp [put, hrest]
    · rw [List.lookup_cons, beq_eq_false_iff_ne.2 (Ne.symm hk)] at hl
      simp [put, hk, ih h.2 hl]

/-- Where no key stands twice, erasing a key leaves the entries of all others. -/
theorem erase_eq_filter (h : (es.map (·.1)).Nodup) : erase key es = es.filter (·.1 != key) := by
  induction es with
  | nil => rfl
  | cons e rest ih =>
    obtain ⟨k, v⟩ := e
    rw [List.map_cons, List.nodup_cons] at h
    by_cases hk : k = key
    · subst hk
      simp only [erase, if_true, bne_self_eq_false, Bool.false_eq_true, not_false_eq_true,
        List.filter_cons_of_neg, ← ih h.2, erase_of_not_mem h.1]
    · simp [erase, hk, ih h.2]

end Assoc

/-! ## Values without a place -/

namespace Value

variable {v child : Value} {key : String}

theorem child?_without (h : v.child? key = some child) (next : String) (rest : List String) :
    (v.without (key :: next :: rest)).child? key = some (child.without (next :: rest)) := by
  cases v with
  | obj members =>
    have hl : members.lookup key = some child := h
    rw [without, child?, Assoc.lookup_modify_self, hl, Option.map_some]
  | arr items =>
    obtain ⟨i, hi, hc⟩ := Option.bind_eq_some_iff.1 h
    simp only [without, child?, hi, Option.bind_some, List.getElem?_modify_eq, hc]
    rfl
  | _ => cases h

/-- Without something that it has, a value is another. -/
theorem without_ne {found : Value} {keys : List String} (hne : keys ≠ [])
    (h : v.descend? keys = some found) : v.without keys ≠ v := by
  induction keys generalizing v with
  | nil => exact absurd rfl hne
  | cons key rest ih =>
    obtain ⟨child, hc, hrest⟩ := Option.bind_eq_some_iff.1 h
    intro he
    cases rest with
    | nil =>
      cases v with
      | obj members =>
        have hl : members.lookup key = some child := hc
        have hfilter := Assoc.lookup_filter_key (· != key) members key
        rw [obj.inj he, hl] at hfilter
        simp at hfilter
      | arr items =>
        obtain ⟨i, hi, hc⟩ := Option.bind_eq_some_iff.1 hc
        obtain ⟨hlt, -⟩ := List.getElem?_eq_some_iff.1 hc
        simp only [without, hi, arr.injEq] at he
        have hlen := congrArg List.length he
        rw [List.length_eraseIdx_of_lt hlt] at hlen
        omega
      | _ => cases hc
    | cons next rest =>
      have hchild := child?_without hc next rest
      rw [he, hc, Option.some.injEq] at hchild
      exact ih (List.cons_ne_nil _ _) hrest hchild.symm

end Value

/-! ## Removing what was written -/

section

variable {value current left below : Value} {path : Path} {context : Context}
  {segment next : String} {rest segments : List String} {d : Descent}

theorem Enters.rebuild_inj (h : Enters context current segment d) {below' : Value} :
    d.rebuild below = d.rebuild below' ↔ below = below' := by
  constructor
  · intro he
    have hc := h.child?_rebuild below
    rw [he, h.child?_rebuild] at hc
    exact (Option.some.inj hc).symm
  · exact congrArg d.rebuild

/-- A removal that goes on as the write did removes from what the write has gone on to. -/
theorem Enters.removeFrom?_rebuild (h : Enters context current segment d)
    (hway : wayOn context current segment = segment) (below : Value) :
    removeFrom? (d.rebuild below) (segment :: next :: rest) =
      (removeFrom? below (next :: rest)).map d.rebuild := by
  cases h with
  | member hs =>
    obtain rfl := (wayOn_of_selected hs).symm.trans hway
    simp only [removeFrom?, Assoc.lookup_put, if_true, Option.bind_some, Assoc.put_put]
  | created =>
    simp only [removeFrom?, Assoc.lookup_put, if_true, Option.bind_some, Assoc.put_put]
  | item hi hc =>
    obtain ⟨hlt, -⟩ := List.getElem?_eq_some_iff.1 hc
    simp only [removeFrom?, hi, Option.bind_some, List.getElem?_set_self hlt, List.set_set]

theorem Enters.without_rebuild (h : Enters context current segment d) (hd : current.Distinct)
    (below : Value) :
    (d.rebuild below).without (wayOn context current segment :: next :: rest) =
      d.rebuild (below.without (next :: rest)) := by
  have hput {members : Members} (hk : (members.map (·.1)).Nodup) (key : String) :
      (Value.obj (Assoc.put key below members)).without (key :: next :: rest) =
        .obj (Assoc.put key (below.without (next :: rest)) members) := by
    have hl : (Assoc.put key below members).lookup key = some below := by
      rw [Assoc.lookup_put, if_pos rfl]
    rw [Value.without, Assoc.modify_eq_put (Assoc.nodup_put hk) hl, Assoc.put_put]
  cases h with
  | member hs =>
    rw [wayOn_of_selected hs]
    exact hput hd.keys _
  | created hs =>
    rw [wayOn_of_created hs]
    exact hput hd.keys _
  | @item items _ i child hi hc =>
    obtain ⟨hlt, -⟩ := List.getElem?_eq_some_iff.1 hc
    have hway : wayOn context (.arr items) segment = segment := rfl
    have hset : (items.set i below).modify i (·.without (next :: rest)) =
        items.set i (below.without (next :: rest)) := by
      refine List.ext_getElem? fun j => ?_
      by_cases hj : i = j
      · subst hj
        rw [List.getElem?_modify_eq, List.getElem?_set_self hlt, List.getElem?_set_self hlt]
        rfl
      · rw [List.getElem?_modify_ne _ _ hj, List.getElem?_set_ne hj, List.getElem?_set_ne hj]
    simp only [hway, Value.without, hi, hset]

/-- A removal leaves what stands beside the key that it goes on by. -/
theorem lookup_of_removeFrom? {members : Members} {key : String} (hk : key ≠ segment)
    (h : removeFrom? (.obj members) (segment :: next :: rest) = some left) :
    left.child? key = members.lookup key := by
  obtain ⟨child, hl, h⟩ := Option.bind_eq_some_iff.1 h
  obtain ⟨below, hb, rfl⟩ := Option.map_eq_some_iff.1 h
  rw [Value.child?, Assoc.lookup_put, if_neg hk]

/-- A removal of the segment that was written last takes away what it names. -/
theorem removeFrom?_of_writeLast (h : writeLast value path current segment = .ok left)
    (hd : current.Distinct) : removeFrom? left [segment] = some (left.without [segment]) := by
  rcases writeLast_eq_ok.1 h with ⟨members, rfl, rfl⟩ | ⟨items, i, rfl, hi, hleft⟩
  · have hkeys : ((fillSlot members segment value).map (·.1)).Nodup :=
      Assoc.nodup_put ((hd.erase keysLast_nodup (counterpart segment)).keys)
    have hother : counterpart segment ∉
        ((fillSlot members segment value).filter (·.1 != segment)).map (·.1) := by
      rw [← Assoc.lookup_eq_none_iff, Assoc.lookup_filter_key (· != segment),
        lookup_fillSlot_counterpart hd.keys, ite_self]
    rw [removeFrom?, emptySlot?, lookup_fillSlot_self, Assoc.erase_eq_filter hkeys,
      Assoc.erase_of_not_mem hother]
    rfl
  · have hlt : ∃ items', left = .arr items' ∧ i < items'.length := by
      rcases hleft with ⟨hlt, rfl⟩ | ⟨rfl, rfl⟩
      · exact ⟨_, rfl, by rwa [List.length_set]⟩
      · exact ⟨_, rfl, by simp⟩
    obtain ⟨items', rfl, hlt⟩ := hlt
    simp only [removeFrom?, hi, Option.bind_some, if_pos hlt, Value.without]

theorem exists_writtenPlace_eq_cons (context : Context) (current : Value) (segment : String)
    (rest : List String) : ∃ key keys, writtenPlace context current (segment :: rest) = key :: keys := by
  cases rest with
  | nil => exact ⟨_, _, rfl⟩
  | cons next rest => exact ⟨_, _, rfl⟩

/-- A removal at the segments of a write takes away just what was written exactly if the write has gone
on by them. -/
theorem removeFrom?_written_iff
    (hw : writeFrom value path context current segments = (left, .ok ())) (hd : current.Distinct) :
    removeFrom? left segments = some (left.without (writtenPlace context current segments)) ↔
      writtenPlace context current segments = segments := by
  induction segments generalizing path context current left with
  | nil => simp [writeFrom] at hw
  | cons segment rest ih =>
    cases rest with
    | nil =>
      exact iff_of_true (removeFrom?_of_writeLast (writeFrom_singleton_eq_ok.1 hw) hd) rfl
    | cons next rest =>
      obtain ⟨d, below, hent, hb, rfl⟩ := writeFrom_cons_cons_eq_ok.1 hw
      have hfound := descend?_writtenPlace hb
      have hih := ih hb (hent.keyed_child keysLast_nodup hd)
      obtain ⟨key, keys, hplace⟩ := exists_writtenPlace_eq_cons d.context d.child next rest
      rw [writtenPlace_cons_cons hent, List.cons.injEq]
      rw [hplace] at hfound hih ⊢
      rw [hent.without_rebuild hd]
      by_cases hway : wayOn context current segment = segment
      · rw [hent.removeFrom?_rebuild hway, Option.map_eq_some_iff]
        simp only [hent.rebuild_inj, exists_eq_right, hih, hway, true_and]
      · -- Only in a mapping a write goes on by another name than its segment.
        refine iff_of_false (fun hr => ?_) fun h => hway h.1
        cases hent with
        | @member members _ k child hs hm hl =>
          have hk : k ≠ segment := by rwa [wayOn_of_selected hs] at hway
          have hleft := lookup_of_removeFrom? hk hr
          simp only [Value.child?, Assoc.lookup_put, if_true, Option.some.injEq] at hleft
          exact Value.without_ne (List.cons_ne_nil _ _) hfound hleft
        | created hs => exact hway (wayOn_of_created hs)
        | item => exact hway rfl

end

namespace Tree

variable {σ : Type} {t t' : Tree σ} {base path : Path} {text : String} {value : Value}

theorem deleteAt_eq_ok_true_iff (hne : path.segments ≠ []) {left : Value} :
    ((t.deleteAt path).2 = .ok true ∧ (t.deleteAt path).1.document = left) ↔
      removeFrom? t.document path.segments = some left := by
  have hremove : remove t.world.document path = .ok (removeFrom? t.document path.segments) := by
    rw [remove, if_neg (by rwa [List.isEmpty_iff])]
    rfl
  unfold deleteAt
  rw [hremove]
  cases removeFrom? t.document path.segments with
  | none => simp
  | some left' => simp [document, written]

/-- In every state that a tree comes to, a removal at the path of a write that went through takes away
just what was written exactly if the write has gone on by the segments of the path alone. -/
theorem delete_undoes_set_iff {document : Value} {options : Options σ} {host : σ}
    (hd : document.Distinct) {acts : List (Act σ)} (ha : ∀ a ∈ acts, a.Writes List.Nodup)
    (reached : t = ((Traffic.idle (ofDocument document options host)).run acts).tree)
    (names : base.resolve text = .ok path) (done : t.set base text value = (t', .ok ())) :
    let place := writtenPlace (t.context.merge (Context.own t.document)) t.document path.segments
    ((t'.delete base text).2 = .ok true ∧
      (t'.delete base text).1.document = t'.document.without place) ↔ place = path.segments := by
  have hdistinct : t.document.Distinct := reached ▸ Traffic.distinct_run options host hd ha
  have hset : t.setAt path value = (t', .ok ()) := by
    rwa [Tree.set, names] at done
  have hdelete : t'.delete base text = t'.deleteAt path := by
    rw [Tree.delete, names]
  obtain ⟨left, hw, rfl⟩ := setAt_eq_ok hset
  have hne : path.segments ≠ [] := by
    intro hnil
    rw [hnil, writeFrom] at hw
    cases hw
  intro place
  rw [hdelete, deleteAt_eq_ok_true_iff hne]
  exact removeFrom?_written_iff hw hdistinct

/-- A new tree with a menu in two languages, of which a context may ask for one. -/
def twoMenus (context : Context) : Tree Unit :=
  ofDocument (.obj [("m", .obj []), ("m:es", .obj [])]) { Options.default with context := context } ()

theorem delete_undoes_set_plain :
    ∃ t' : Tree Unit, (twoMenus .empty).set .root "m.t" (.str "a") = (t', .ok ()) ∧
      (t'.delete .root "m.t").2 = .ok true ∧
      (t'.delete .root "m.t").1.document = t'.document.without ["m", "t"] := by
  have hd : (Value.obj [("m", .obj []), ("m:es", .obj [])]).Distinct := by simp [Value.Distinct]
  have hnames : Path.root.resolve "m.t" = .ok ⟨["m", "t"]⟩ := by decide
  have hplace : writtenPlace ((twoMenus .empty).context.merge (Context.own (twoMenus .empty).document))
      (twoMenus .empty).document ["m", "t"] = ["m", "t"] := by cbv
  have hdone : ((twoMenus .empty).set .root "m.t" (.str "a")).2 = .ok () := by cbv
  rcases hset : (twoMenus .empty).set .root "m.t" (.str "a") with ⟨t', outcome⟩
  rw [hset] at hdone
  obtain rfl : outcome = .ok () := hdone
  have hundone := (delete_undoes_set_iff hd (fun a h => absurd h List.not_mem_nil) rfl hnames hset).2
    hplace
  refine ⟨t', rfl, hundone.1, ?_⟩
  rw [← hplace]
  exact hundone.2

/-- What was written to the Spanish menu is not removed. -/
theorem delete_passes_by_spanish :
    ((twoMenus (.ofList [("lang", "es")])).set .root "m.t" (.str "a")).2 = .ok () ∧
      (((twoMenus (.ofList [("lang", "es")])).set .root "m.t" (.str "a")).1.delete .root "m.t").2 =
        .ok false := by
  constructor <;> cbv

end Tree

end LiveDoc
