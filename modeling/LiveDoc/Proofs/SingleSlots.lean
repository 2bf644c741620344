import LiveDoc.Proofs.Landing
import Mathlib

/-! # Slots with a single key

A slot holds a value or an expression, so no key should stand beside the same key with a marker in
front. A write keeps it so where it fills the slot of its last segment, but not where it creates a key
on its way: the new key may come beside its other spelling. Along a run these are the only acts that
double a slot.
-/

namespace LiveDoc

/-- No key stands beside the same key with a marker in front. -/
def SingleKeys (keys : List String) : Prop :=
  ∀ key ∈ keys, mark key ∉ keys

instance (keys : List String) : Decidable (SingleKeys keys) :=
  inferInstanceAs (Decidable (∀ key ∈ keys, mark key ∉ keys))

/-- In no mapping of the value a key stands beside the same key with a marker in front. -/
def Value.SingleSlotted (v : Value) : Prop :=
  v.Keyed SingleKeys

/-- Among the keys there is a key with a marker more or less in front. -/
def Pairs (keys : List String) (key : String) : Prop :=
  mark key ∈ keys ∨ ∃ k ∈ keys, mark k = key

/-- A write below a value puts a key beside another spelling of it: a key that it creates on its way,
or a last segment with a marker beside a key with one marker more. -/
inductive Doubles : Context → Value → List String → Prop where
  | last {context : Context} {members : Members} {segment : String}
    (marked : isMarked segment = true) (found : mark segment ∈ members.map (·.1)) :
    Doubles context (.obj members) [segment]
  | created {context : Context} {members : Members} {segment next : String} {rest : List String}
    (selected : selectKey members segment context = none) (named : reservedName? segment = none)
    (paired : Pairs (members.map (·.1)) segment) :
    Doubles context (.obj members) (segment :: next :: rest)
  | further {context : Context} {current : Value} {segment next : String} {rest : List String}
    {d : Descent} (enters : Enters context current segment d)
    (below : Doubles d.context d.child (next :: rest)) :
    Doubles context current (segment :: next :: rest)

/-! ## Keys -/

section

variable {keys : List String} {key : String}

theorem singleKeys_nil : SingleKeys [] :=
  List.forall_mem_nil _

theorem SingleKeys.erase (h : SingleKeys keys) (key : String) : SingleKeys (keys.erase key) :=
  fun k hk hm => h k (List.mem_of_mem_erase hk) (List.mem_of_mem_erase hm)

theorem singleKeys_append_iff :
    SingleKeys (keys ++ [key]) ↔ SingleKeys keys ∧ ¬ Pairs keys key := by
  constructor
  · intro h
    refine ⟨fun k hk hm => h k (List.mem_append_left _ hk) (List.mem_append_left _ hm), ?_⟩
    rintro (hm | ⟨k, hk, rfl⟩)
    · exact h key (List.mem_append_right _ List.mem_cons_self) (List.mem_append_left _ hm)
    · exact h k (List.mem_append_left _ hk) (List.mem_append_right _ List.mem_cons_self)
  · rintro ⟨h, hp⟩ k hk hm
    rcases List.mem_append.1 hk with hk | hk <;> rcases List.mem_append.1 hm with hm | hm
    · exact h k hk hm
    · exact hp (.inr ⟨k, hk, List.mem_singleton.1 hm⟩)
    · rw [List.mem_singleton.1 hk] at hm
      exact hp (.inl hm)
    · rw [List.mem_singleton.1 hk] at hm
      exact mark_ne key (List.mem_singleton.1 hm)

/-- Once the counterpart of a key is erased, only a key with two markers can be another spelling. -/
theorem pairs_erase_counterpart_iff (hd : keys.Nodup) :
    Pairs (keys.erase (counterpart key)) key ↔ isMarked key = true ∧ mark key ∈ keys := by
  have hgone : counterpart key ∉ keys.erase (counterpart key) := hd.not_mem_erase
  unfold Pairs
  cases hu : unmark? key with
  | none =>
    have hm : isMarked key = false := by rw [isMarked, hu]; rfl
    have hc : counterpart key = mark key := by rw [counterpart, hu, Option.getD_none]
    rw [hc] at hgone ⊢
    refine iff_of_false ?_ fun h => by rw [hm] at h; cases h.1
    rintro (h | ⟨k, -, rfl⟩)
    · exact hgone h
    · rw [isMarked_mark] at hm
      cases hm
  | some plain =>
    have hm : isMarked key = true := by rw [isMarked, hu]; rfl
    have hc : counterpart key = plain := by rw [counterpart, hu, Option.getD_some]
    have hkey : mark plain = key := mark_of_unmark? hu
    rw [hc] at hgone ⊢
    have hne : mark key ≠ plain := by
      intro he
      have hl : (mark (mark plain)).toList.length = plain.toList.length := by rw [hkey, he]
      simp only [mark, String.toList_ofList, List.length_cons] at hl
      omega
    have hother : ¬ ∃ k ∈ keys.erase plain, mark k = key := by
      rintro ⟨k, hk, hm⟩
      exact hgone (mark_inj.1 (hm.trans hkey.symm) ▸ hk)
    rw [List.mem_erase_of_ne hne, or_iff_left hother]
    exact (and_iff_right hm).symm

end

/-! ## Writes -/

section

variable {value current : Value} {path : Path} {context : Context} {segment next : String}
  {rest segments : List String} {d : Descent}

/-- A filled slot has a single key unless the segment has a marker and a key has one marker more. -/
theorem singleSlotted_fillSlot_iff {members : Members} (hv : value.SingleSlotted)
    (hd : (members.map (·.1)).Nodup) (h : (Value.obj members).SingleSlotted) :
    (Value.obj (fillSlot members segment value)).SingleSlotted ↔
      ¬ (isMarked segment = true ∧ mark segment ∈ members.map (·.1)) := by
  have herased := (h.erase_iff (counterpart segment)).2 (h.keys.erase _)
  have hvalue : value.Keyed SingleKeys := hv
  rw [Value.SingleSlotted, fillSlot, herased.put_iff, and_iff_left hvalue, Assoc.keys_put,
    Assoc.keys_erase, ← pairs_erase_counterpart_iff hd]
  split
  · next hk =>
    have hsingle := h.keys.erase (counterpart segment)
    refine iff_of_true hsingle ?_
    rintro (hm | ⟨k, hm, rfl⟩)
    · exact hsingle segment hk hm
    · exact hsingle k hm hk
  · rw [singleKeys_append_iff, and_iff_right (h.keys.erase _)]

theorem not_doubles_nil : ¬ Doubles context current [] := by
  intro h
  cases h

theorem doubles_singleton_iff {members : Members} : Doubles context (.obj members) [segment] ↔
    isMarked segment = true ∧ mark segment ∈ members.map (·.1) := by
  constructor
  · intro h
    cases h with
    | last hm hf => exact ⟨hm, hf⟩
  · rintro ⟨hm, hf⟩
    exact .last hm hf

/-- On its way a write doubles a slot by a key that it creates, or further down. -/
theorem Enters.doubles_iff (h : Enters context current segment d) :
    Doubles context current (segment :: next :: rest) ↔
      (∃ members, current = .obj members ∧ selectKey members segment context = none ∧
        Pairs (members.map (·.1)) segment) ∨ Doubles d.context d.child (next :: rest) := by
  constructor
  · intro hd
    cases hd with
    | created hs _ hp => exact .inl ⟨_, rfl, hs, hp⟩
    | further h' hb => exact .inr (h.unique h' ▸ hb)
  · rintro (⟨members, rfl, hs, hp⟩ | hb)
    · cases h with
      | member hs' =>
        rw [hs] at hs'
        cases hs'
      | created _ hr => exact .created hs hr hp
    · exact .further h hb

/-- What a write rebuilds on its way is single-slotted if the part below is, and so is the key that it
has created there. -/
theorem Enters.singleSlotted_rebuild_iff (h : Enters context current segment d)
    (hc : current.SingleSlotted) (below : Value) : (d.rebuild below).SingleSlotted ↔
      (¬ ∃ members, current = .obj members ∧ selectKey members segment context = none ∧
        Pairs (members.map (·.1)) segment) ∧ below.SingleSlotted := by
  cases h with
  | @member members _ key child hs _ hl =>
    have hold : ¬ ∃ ms, Value.obj members = .obj ms ∧ selectKey ms segment context = none ∧
        Pairs (ms.map (·.1)) segment := by
      rintro ⟨_, ⟨⟩, hn, -⟩
      rw [hs] at hn
      cases hn
    rw [and_iff_right hold]
    exact hc.replace_iff hl
  | @created members _ hs _ =>
    have hkey : segment ∉ members.map (·.1) :=
      Assoc.lookup_eq_none_iff.1 (lookup_of_selectKey_eq_none hs)
    have hnew : (∃ ms, Value.obj members = .obj ms ∧ selectKey ms segment context = none ∧
        Pairs (ms.map (·.1)) segment) ↔ Pairs (members.map (·.1)) segment :=
      ⟨fun ⟨_, he, _, hp⟩ => Value.obj.inj he ▸ hp, fun hp => ⟨_, rfl, hs, hp⟩⟩
    rw [Value.SingleSlotted, hc.put_iff, Assoc.keys_put, if_neg hkey, singleKeys_append_iff,
      and_iff_right hc.keys, hnew]
    rfl
  | @item items _ i child hi hl =>
    have harray : ¬ ∃ ms, Value.arr items = .obj ms ∧ selectKey ms segment context = none ∧
        Pairs (ms.map (·.1)) segment := by
      rintro ⟨_, ⟨⟩, -⟩
    rw [and_iff_right harray]
    exact hc.set_iff (List.getElem?_eq_some_iff.1 hl).1

theorem writeLast_singleSlotted_iff (hv : value.SingleSlotted) (hd : current.Distinct)
    (hc : current.SingleSlotted) :
    (writeFrom value path context current [segment]).1.SingleSlotted ↔
      ¬ Doubles context current [segment] := by
  cases current with
  | obj members =>
    rw [doubles_singleton_iff]
    exact singleSlotted_fillSlot_iff hv hd.keys hc
  | arr items =>
    refine iff_of_true ?_ fun h => by cases h
    cases hw : writeLast value path (.arr items) segment with
    | error e => simpa only [writeFrom, hw] using hc
    | ok left =>
      simp only [writeFrom, hw]
      rcases writeLast_eq_ok.1 hw with ⟨_, ⟨⟩, -⟩ | ⟨_, i, ⟨⟩, -, ⟨hlt, rfl⟩ | ⟨-, rfl⟩⟩
      · exact (hc.set_iff hlt).2 hv
      · refine Value.Keyed.arr_iff.2 (List.forall_mem_append.2 ⟨Value.Keyed.arr_iff.1 hc, ?_⟩)
        exact List.forall_mem_singleton.2 hv
  | _ => exact iff_of_true hc fun h => by cases h

/-- A write below a single-slotted value leaves it so exactly if it doubles no slot, also when it
fails. -/
theorem writeFrom_singleSlotted_iff (hv : value.SingleSlotted) (hd : current.Distinct)
    (hc : current.SingleSlotted) :
    (writeFrom value path context current segments).1.SingleSlotted ↔
      ¬ Doubles context current segments := by
  induction segments generalizing path context current with
  | nil => exact iff_of_true hc not_doubles_nil
  | cons segment rest ih =>
    cases rest with
    | nil => exact writeLast_singleSlotted_iff hv hd hc
    | cons next rest =>
      cases hdescent : descent path context current segment with
      | error e =>
        have hnone (d : Descent) : ¬ Enters context current segment d := fun h => by
          rw [descent_eq_ok.2 h] at hdescent
          cases hdescent
        simp only [writeFrom, hdescent]
        refine iff_of_true hc fun h => ?_
        cases h with
        | created hs hr _ => exact hnone _ (.created hs hr)
        | further h _ => exact hnone _ h
      | ok d =>
        have hent := descent_eq_ok.1 hdescent
        rw [writeFrom_cons_cons hent, hent.singleSlotted_rebuild_iff hc, hent.doubles_iff, not_or,
          ih (hent.keyed_child keysLast_nodup hd) (hent.keyed_part singleKeys_nil hc)]

/-- Where no key has two markers, a write doubles a slot only if a segment before the last names its key
exactly. -/
theorem Doubles.exists_exact (h : Doubles context current segments)
    (hc : current.Keyed fun keys => ∀ key ∈ keys, Spelled key) :
    ∃ s ∈ segments.dropLast, isExact s = true := by
  induction h with
  | @last context members segment hm hf =>
    have hspelled := hc.keys _ hf
    rw [Spelled, unmark_mark, hm] at hspelled
    cases hspelled
  | @created context members segment next rest hs _ hp =>
    refine ⟨segment, List.mem_cons_self, ?_⟩
    by_contra hbare
    rw [Bool.not_eq_true] at hbare
    rcases hp with hm | ⟨k, -, rfl⟩
    · exact mark_not_mem_of_selectKey_eq_none hbare hs hm
    · have hm := (isExact_eq_false hbare).2
      rw [isMarked_mark] at hm
      cases hm
  | @further context current segment next rest d hent _ ih =>
    obtain ⟨s, hs, he⟩ := ih (hent.keyed_part (List.forall_mem_nil _) hc)
    exact ⟨s, List.mem_cons_of_mem _ hs, he⟩

end

/-! ## Runs -/

namespace Act

variable {σ : Type}

/-- The path that an act writes to. -/
def Targets : Act σ → Path → Prop
  | .set base text _, path | .clear base text, path => base.resolve text = .ok path
  | _, _ => False

/-- An act writes to a path and on its way puts a key beside another spelling of it. -/
def Doubles (t : Tree σ) (a : Act σ) : Prop :=
  ∃ path, a.Targets path ∧ path.last?.bind reservedName? = none ∧
    LiveDoc.Doubles (t.context.merge (Context.own t.document)) t.document path.segments

theorem doubles_iff {t : Tree σ} {a : Act σ} {path : Path} (h : ∀ p, a.Targets p ↔ p = path) :
    a.Doubles t ↔ path.last?.bind reservedName? = none ∧
      LiveDoc.Doubles (t.context.merge (Context.own t.document)) t.document path.segments := by
  simp only [Doubles, h, exists_eq_left]

end Act

namespace Tree

variable {σ : Type} {t : Tree σ} {value : Value}

theorem setAt_singleSlotted_iff (hv : value.SingleSlotted) (hd : t.document.Distinct)
    (h : t.document.SingleSlotted) (path : Path) : (t.setAt path value).1.document.SingleSlotted ↔
      ¬ (path.last?.bind reservedName? = none ∧
        Doubles (t.context.merge (Context.own t.document)) t.document path.segments) := by
  rw [document_setAt, write]
  split
  · next name hr => simpa [hr] using h
  · next hr => rw [hr, and_iff_right rfl, writeFrom_singleSlotted_iff hv hd h]

theorem clearAt_singleSlotted_iff (hd : t.document.Distinct) (h : t.document.SingleSlotted)
    (path : Path) : (t.clearAt path).1.document.SingleSlotted ↔
      ¬ (path.last?.bind reservedName? = none ∧
        Doubles (t.context.merge (Context.own t.document)) t.document path.segments) := by
  have hnil : (Value.obj []).SingleSlotted := .obj singleKeys_nil (List.forall_mem_nil _)
  unfold clearAt
  split
  · next hroot =>
    rw [List.isEmpty_iff.1 hroot]
    exact iff_of_true hnil fun hroot => not_doubles_nil hroot.2
  · exact setAt_singleSlotted_iff hnil hd h path

end Tree

namespace Traffic

variable {σ : Type} {s : Traffic σ} {ops : List CacheOp}

/-- From a single-slotted document an act comes to another exactly if it doubles no slot. -/
theorem act_singleSlotted_iff (hs : s.Recorded ops) (hd : s.tree.document.Distinct)
    (h : s.tree.document.SingleSlotted) {a : Act σ} (ha : a.Writes SingleKeys) :
    (s.act a).tree.document.SingleSlotted ↔ ¬ a.Doubles s.tree := by
  have hnone (hn : ∀ path, ¬ a.Targets path) : ¬ a.Doubles s.tree :=
    fun ⟨path, hp, _⟩ => hn path hp
  cases a with
  | start base text asked =>
    rw [hs.document_start]
    exact iff_of_true h (hnone fun _ => id)
  | poll place =>
    rw [hs.document_poll]
    exact iff_of_true h (hnone fun _ => id)
  | clearCache | setContext | host => exact iff_of_true h (hnone fun _ => id)
  | delete base text =>
    refine iff_of_true ?_ (hnone fun _ => id)
    simp only [act, Tree.delete]
    split
    · exact Tree.keyed_deleteAt (fun key hk => SingleKeys.erase hk key) h _
    · exact h
  | set base text value =>
    simp only [act, Tree.set]
    cases hp : base.resolve text with
    | error e => exact iff_of_true h (hnone fun path ht => by simp [Act.Targets, hp] at ht)
    | ok path =>
      have htargets (p : Path) : (Act.set (σ := σ) base text value).Targets p ↔ p = path := by
        simp [Act.Targets, hp, eq_comm]
      rw [Act.doubles_iff htargets]
      exact Tree.setAt_singleSlotted_iff ha hd h path
  | clear base text =>
    simp only [act, Tree.clear]
    cases hp : base.resolve text with
    | error e => exact iff_of_true h (hnone fun path ht => by simp [Act.Targets, hp] at ht)
    | ok path =>
      have htargets (p : Path) : (Act.clear (σ := σ) base text).Targets p ↔ p = path := by
        simp [Act.Targets, hp, eq_comm]
      rw [Act.doubles_iff htargets]
      exact Tree.clearAt_singleSlotted_iff hd h path

/-- All documents along a run are single-slotted exactly if no act of it doubles a slot. -/
theorem run_singleSlotted_iff (hs : s.Recorded ops) (hd : s.tree.document.Distinct)
    (h : s.tree.document.SingleSlotted) {acts : List (Act σ)}
    (ha : ∀ a ∈ acts, a.Writes List.Nodup ∧ a.Writes SingleKeys) :
    (∀ front back, acts = front ++ back → (s.run front).tree.document.SingleSlotted) ↔
      ∀ front a back, acts = front ++ a :: back → ¬ a.Doubles (s.run front).tree := by
  induction acts generalizing s ops with
  | nil =>
    refine iff_of_true (fun front back he => ?_) fun front a back he => ?_
    · rw [(List.append_eq_nil_iff.1 he.symm).1]
      exact h
    · simp at he
  | cons a rest ih =>
    obtain ⟨⟨hnodup, hsingle⟩, hrest⟩ := List.forall_mem_cons.1 ha
    obtain ⟨more, hrec, -⟩ := hs.act a
    have hact := act_singleSlotted_iff hs hd h hsingle
    have hdistinct := keyed_act keysLast_nodup hs hd hnodup
    constructor
    · intro hall front b back he
      have hfirst := hall [a] rest rfl
      cases front with
      | nil =>
        obtain ⟨rfl, -⟩ := List.cons.inj he
        exact hact.1 hfirst
      | cons c front =>
        obtain ⟨rfl, htail⟩ := List.cons.inj he
        refine (ih hrec hdistinct hfirst hrest).1 (fun front' back' he' => ?_) front b back htail
        exact hall (a :: front') back' (congrArg (a :: ·) he')
    · intro hnone front back he
      cases front with
      | nil => exact h
      | cons c front =>
        obtain ⟨rfl, htail⟩ := List.cons.inj he
        have hfirst := hact.2 (hnone [] a rest rfl)
        refine (ih hrec hdistinct hfirst hrest).2 (fun front' b back' he' => ?_) front back htail
        exact hnone (a :: front') b back' (congrArg (a :: ·) he')

/-- From a single-slotted document, all documents that a tree comes to by acts that write single-slotted
values are single-slotted exactly if no act puts a key beside another spelling of it. Where no key has
two markers, an act does so only if its path names a key exactly before its last segment. -/
theorem single_slots_kept_iff {document : Value} (options : Options σ) (host : σ)
    (hd : document.Distinct) (h : document.SingleSlotted) {acts : List (Act σ)}
    (ha : ∀ a ∈ acts, a.Writes List.Nodup ∧ a.Writes SingleKeys) :
    let reached (front : List (Act σ)) := ((idle (Tree.ofDocument document options host)).run front).tree
    ((∀ front back, acts = front ++ back → (reached front).document.SingleSlotted) ↔
      ∀ front a back, acts = front ++ a :: back → ¬ a.Doubles (reached front)) ∧
    ∀ front (a : Act σ), a.Doubles (reached front) →
      ((reached front).document.Keyed fun keys => ∀ key ∈ keys, Spelled key) →
      ∃ path, a.Targets path ∧ ∃ s ∈ path.segments.dropLast, isExact s = true := by
  intro reached
  refine ⟨run_singleSlotted_iff (recorded_idle document options host) hd h ha, ?_⟩
  rintro front a ⟨path, htarget, -, hdoubles⟩ hspelled
  exact ⟨path, htarget, hdoubles.exists_exact hspelled⟩

/-- A write by bare names keeps slots single beside an expression. -/
theorem single_slots_kept_bare :
    ((idle (Tree.ofDocument (.obj [(".c", .str "x")]) (.default : Options Unit) ())).run
      [.set .root "a.b" (.str "y")]).tree.document.SingleSlotted := by
  have hd : (Value.obj [(".c", .str "x")]).Distinct := by simp [Value.Distinct]
  have hs : (Value.obj [(".c", .str "x")]).SingleSlotted :=
    Value.Keyed.obj_iff.2 ⟨by decide, by simp⟩
  have hspelled : (Value.obj [(".c", .str "x")]).Keyed fun keys => ∀ key ∈ keys, Spelled key :=
    Value.Keyed.obj_iff.2 ⟨by decide, by simp⟩
  have ha : ∀ a ∈ [Act.set (σ := Unit) .root "a.b" (.str "y")],
      a.Writes List.Nodup ∧ a.Writes SingleKeys := by simp [Act.Writes]
  have hkept := single_slots_kept_iff (.default : Options Unit) () hd hs ha
  refine hkept.1.2 (fun front a back he hdoubles => ?_) [_] [] rfl
  obtain ⟨rfl, rfl⟩ : front = [] ∧ a = .set .root "a.b" (.str "y") := by
    cases front <;> simp_all
  obtain ⟨path, htarget, s, hmem, hexact⟩ := hkept.2 [] _ hdoubles hspelled
  have hnames : Path.root.resolve "a.b" = .ok ⟨["a", "b"]⟩ := by decide
  obtain rfl : path = ⟨["a", "b"]⟩ := by
    have hp : Path.root.resolve "a.b" = .ok path := htarget
    simpa [hnames] using hp.symm
  obtain rfl : s = "a" := by simpa using hmem
  exact absurd hexact (by decide)

/-- A tree with an expression in Spanish. -/
def spanishText : Tree Unit :=
  .ofDocument (.obj [(".a:es", .str "x")]) .default ()

/-- A mapping is created beside the expression of its slot. -/
theorem created_beside_expression :
    spanishText.document.SingleSlotted ∧
      (spanishText.set .root "a:es.b" (.str "y")).2 = .ok () ∧
      (spanishText.set .root "a:es.b" (.str "y")).1.document =
        .obj [(".a:es", .str "x"), ("a:es", .obj [("b", .str "y")])] ∧
      ¬ (spanishText.set .root "a:es.b" (.str "y")).1.document.SingleSlotted := by
  have hdocument : (spanishText.set .root "a:es.b" (.str "y")).1.document =
      .obj [(".a:es", .str "x"), ("a:es", .obj [("b", .str "y")])] := by cbv
  refine ⟨Value.Keyed.obj_iff.2 ⟨by decide, by simp⟩, by cbv, hdocument, fun h => ?_⟩
  rw [hdocument] at h
  exact absurd h.keys (by decide)

end Traffic

end LiveDoc
