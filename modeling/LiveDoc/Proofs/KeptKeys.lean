import LiveDoc.Document.Remove
import LiveDoc.Proofs.Descent
import LiveDoc.Proofs.TrafficLog

/-! # Keys throughout a document

What holds of the keys of every mapping in a document, and lasts when a key is added or erased, holds in
every state that a tree comes to, also after writes that failed.
-/

namespace LiveDoc

/-- The keys of every mapping in a value have a property. -/
inductive Value.Keyed (P : List String → Prop) : Value → Prop where
  | null : Keyed P .null
  | bool (b : Bool) : Keyed P (.bool b)
  | num (n : Number) : Keyed P (.num n)
  | str (s : String) : Keyed P (.str s)
  | arr {items : List Value} (parts : ∀ v ∈ items, Keyed P v) : Keyed P (.arr items)
  | obj {members : Members} (keys : P (members.map (·.1))) (parts : ∀ e ∈ members, Keyed P e.2) :
    Keyed P (.obj members)

/-- No key stands twice in a mapping of the value. -/
def Value.Distinct (v : Value) : Prop :=
  v.Keyed List.Nodup

/-- A property of keys lasts when keys are erased and when a new one that is not reserved is added. -/
structure KeysLast (P : List String → Prop) : Prop where
  nil : P []
  append : ∀ {keys : List String} {key : String}, P keys → key ∉ keys → reservedName? key = none →
    P (keys ++ [key])
  erase : ∀ {keys : List String} (key : String), P keys → P (keys.erase key)

theorem keysLast_nodup : KeysLast List.Nodup where
  nil := List.nodup_nil
  append h hk _ := List.nodup_append.2 ⟨h, by simp, by rintro a ha b hb rfl; simp_all⟩
  erase key h := h.erase key

theorem Assoc.keys_erase {κ ν : Type} [DecidableEq κ] (key : κ) (es : List (κ × ν)) :
    (erase key es).map (·.1) = (es.map (·.1)).erase key := by
  induction es with
  | nil => rfl
  | cons e rest ih =>
    obtain ⟨k, v⟩ := e
    by_cases hk : k = key
    · simp [erase, hk]
    · simp [erase, hk, ih]

namespace Value.Keyed

variable {P : List String → Prop} {members : Members} {key : String} {value : Value}

@[simp] theorem str_iff (s : String) : (Value.str s).Keyed P ↔ True :=
  iff_true_intro (.str s)

@[simp] theorem arr_iff {items : List Value} :
    (Value.arr items).Keyed P ↔ ∀ v ∈ items, v.Keyed P := by
  constructor
  · rintro ⟨⟩
    assumption
  · exact .arr

@[simp] theorem obj_iff :
    (Value.obj members).Keyed P ↔ P (members.map (·.1)) ∧ ∀ e ∈ members, e.2.Keyed P := by
  constructor
  · intro h
    cases h with
    | obj keys parts => exact ⟨keys, parts⟩
  · rintro ⟨keys, parts⟩
    exact .obj keys parts

theorem keys (h : (Value.obj members).Keyed P) : P (members.map (·.1)) :=
  (obj_iff.1 h).1

theorem of_lookup (h : (Value.obj members).Keyed P) {child : Value}
    (hl : members.lookup key = some child) : child.Keyed P := by
  cases h with
  | obj _ parts => exact parts _ (Assoc.mem_of_lookup hl)

theorem of_getElem? {items : List Value} (h : (Value.arr items).Keyed P) {i : Nat} {child : Value}
    (hi : items[i]? = some child) : child.Keyed P := by
  cases h with
  | arr parts => exact parts child (List.mem_of_getElem? hi)

/-- Where a member is put, only the keys and the member itself matter. -/
theorem put_iff (h : (Value.obj members).Keyed P) : (Value.obj (Assoc.put key value members)).Keyed P ↔
    P ((Assoc.put key value members).map (·.1)) ∧ value.Keyed P := by
  refine ⟨fun hp => ⟨hp.keys, ?_⟩, fun ⟨hk, hv⟩ => .obj hk fun e he => ?_⟩
  · exact hp.of_lookup (by rw [Assoc.lookup_put, if_pos rfl])
  · rcases Assoc.mem_of_mem_put he with rfl | he
    · exact hv
    · exact (obj_iff.1 h).2 e he

/-- A member that takes the place of another leaves the keys. -/
theorem replace_iff (h : (Value.obj members).Keyed P) {child : Value}
    (hl : members.lookup key = some child) :
    (Value.obj (Assoc.put key value members)).Keyed P ↔ value.Keyed P := by
  rw [h.put_iff, Assoc.keys_put, if_pos (Assoc.isSome_lookup_iff.1 (by rw [hl]; rfl))]
  exact and_iff_right h.keys

/-- A member takes the place of another, or comes new under a key that is not reserved. -/
theorem put (hP : KeysLast P) (h : (Value.obj members).Keyed P) (hv : value.Keyed P)
    (hk : key ∉ members.map (·.1) → reservedName? key = none) :
    (Value.obj (Assoc.put key value members)).Keyed P := by
  refine h.put_iff.2 ⟨?_, hv⟩
  rw [Assoc.keys_put]
  split
  · exact h.keys
  · next hn => exact hP.append h.keys hn (hk hn)

theorem erase_iff (h : (Value.obj members).Keyed P) (key : String) :
    (Value.obj (Assoc.erase key members)).Keyed P ↔ P ((members.map (·.1)).erase key) := by
  rw [obj_iff, Assoc.keys_erase]
  exact and_iff_left fun e he => (obj_iff.1 h).2 e (Assoc.mem_of_mem_erase he)

theorem erase (hP : KeysLast P) (h : (Value.obj members).Keyed P) (key : String) :
    (Value.obj (Assoc.erase key members)).Keyed P :=
  (h.erase_iff key).2 (hP.erase key h.keys)

theorem set {items : List Value} (h : (Value.arr items).Keyed P) (hv : value.Keyed P) (i : Nat) :
    (Value.arr (items.set i value)).Keyed P := by
  cases h with
  | arr parts =>
    refine .arr fun v hm => ?_
    rcases List.mem_or_eq_of_mem_set hm with hm | rfl
    · exact parts v hm
    · exact hv

/-- An item takes the place of another. -/
theorem set_iff {items : List Value} (h : (Value.arr items).Keyed P) {i : Nat} (hi : i < items.length) :
    (Value.arr (items.set i value)).Keyed P ↔ value.Keyed P :=
  ⟨fun hs => hs.of_getElem? (List.getElem?_set_self hi), fun hv => h.set hv i⟩

end Value.Keyed

/-! ## Writes and removals -/

/-- What a write enters has keys of the property, be it a mapping that is created. -/
theorem Enters.keyed_part {P : List String → Prop} (hnil : P []) {context : Context} {current : Value}
    {segment : String} {d : Descent} (h : Enters context current segment d) (hc : current.Keyed P) :
    d.child.Keyed P := by
  cases h with
  | member _ _ hl => exact hc.of_lookup hl
  | created => exact .obj hnil fun _ he => absurd he List.not_mem_nil
  | item _ hi => exact hc.of_getElem? hi

section

variable {P : List String → Prop} (hP : KeysLast P) {value current left : Value} {path : Path}
  {context : Context} {segments : List String}

include hP

theorem Enters.keyed_child {segment : String} {d : Descent} (h : Enters context current segment d)
    (hc : current.Keyed P) : d.child.Keyed P :=
  h.keyed_part hP.nil hc

theorem Enters.keyed_rebuild {segment : String} {d : Descent} (h : Enters context current segment d)
    (hc : current.Keyed P) {below : Value} (hb : below.Keyed P) : (d.rebuild below).Keyed P := by
  cases h with
  | member _ _ hl => exact (hc.replace_iff hl).2 hb
  | created _ hr => exact hc.put hP hb fun _ => hr
  | item => exact hc.set hb _

theorem keyed_writeLast {segment : String} (hv : value.Keyed P) (hc : current.Keyed P)
    (hr : reservedName? segment = none) (h : writeLast value path current segment = .ok left) :
    left.Keyed P := by
  cases current with
  | obj members =>
    cases h
    exact (hc.erase hP _).put hP hv fun _ => hr
  | arr items =>
    simp only [writeLast, bind, Except.bind] at h
    split at h
    · cases h
    · split at h
      · cases h
        exact hc.set hv _
      · split at h
        · cases h
          cases hc with
          | arr parts => exact .arr (List.forall_mem_append.2 ⟨parts, List.forall_mem_singleton.2 hv⟩)
        · cases h
  | _ => cases h

/-- Also a write that fails leaves a document with such keys. -/
theorem keyed_writeFrom (hv : value.Keyed P) (hc : current.Keyed P)
    (hlast : ∀ segment, segments.getLast? = some segment → reservedName? segment = none) :
    (writeFrom value path context current segments).1.Keyed P := by
  induction segments generalizing path context current with
  | nil => exact hc
  | cons segment rest ih =>
    cases rest with
    | nil =>
      cases hw : writeLast value path current segment with
      | error e => simpa only [writeFrom, hw] using hc
      | ok written => simpa only [writeFrom, hw] using keyed_writeLast hP hv hc (hlast segment rfl) hw
    | cons next rest =>
      cases hd : descent path context current segment with
      | error e => simpa only [writeFrom, hd] using hc
      | ok d =>
        have hent := descent_eq_ok.1 hd
        simp only [writeFrom, hd]
        exact hent.keyed_rebuild hP hc (ih (hent.keyed_child hP hc) fun s hs =>
          hlast s (by rwa [List.getLast?_cons_cons]))

end

/-- A removal takes keys away, and adds none. -/
theorem keyed_removeFrom? {P : List String → Prop} (hP : ∀ {keys : List String} (key : String),
    P keys → P (keys.erase key)) {current left : Value} {segments : List String} (hc : current.Keyed P)
    (h : removeFrom? current segments = some left) : left.Keyed P := by
  fun_induction removeFrom? current segments generalizing left with
  | case1 | case4 | case7 => cases h
  | case2 segment members =>
    obtain ⟨members', he, rfl⟩ := Option.map_eq_some_iff.1 h
    simp only [emptySlot?, Option.ite_none_right_eq_some, Option.some.injEq] at he
    have herased := (hc.erase_iff segment).2 (hP segment hc.keys)
    rw [← he.2]
    exact (herased.erase_iff _).2 (hP _ herased.keys)
  | case3 segment items =>
    obtain ⟨i, -, h⟩ := Option.bind_eq_some_iff.1 h
    split at h
    · cases h
      cases hc with
      | arr parts => exact .arr fun v hm => parts v (List.eraseIdx_subset hm)
    · cases h
  | case5 segment next rest members ih =>
    obtain ⟨child, hl, h⟩ := Option.bind_eq_some_iff.1 h
    obtain ⟨below, hb, rfl⟩ := Option.map_eq_some_iff.1 h
    exact (hc.replace_iff hl).2 (ih child (hc.of_lookup hl) hb)
  | case6 segment next rest items ih =>
    obtain ⟨i, -, h⟩ := Option.bind_eq_some_iff.1 h
    obtain ⟨child, hi, h⟩ := Option.bind_eq_some_iff.1 h
    obtain ⟨below, hb, rfl⟩ := Option.map_eq_some_iff.1 h
    obtain ⟨hlt, -⟩ := List.getElem?_eq_some_iff.1 hi
    exact (hc.set_iff hlt).2 (ih child (hc.of_getElem? hi) hb)

/-! ## States of a tree -/

/-- What an act writes has keys of the property. -/
def Act.Writes {σ : Type} (P : List String → Prop) : Act σ → Prop
  | .set _ _ value => value.Keyed P
  | _ => True

namespace Tree

variable {σ : Type}

theorem keyed_deleteAt {P : List String → Prop} (hP : ∀ {keys : List String} (key : String),
    P keys → P (keys.erase key)) {t : Tree σ} (h : t.document.Keyed P) (path : Path) :
    (t.deleteAt path).1.document.Keyed P := by
  unfold deleteAt
  split
  · exact h
  · exact h
  · next left hr =>
    unfold remove at hr
    split at hr
    · cases hr
    · exact keyed_removeFrom? hP h (Except.ok.inj hr)

theorem document_setAt (t : Tree σ) (path : Path) (value : Value) :
    (t.setAt path value).1.document = (write t.document path value t.context).1 := by
  unfold setAt
  split <;> next hw => exact (congrArg Prod.fst hw).symm

theorem outcome_setAt (t : Tree σ) (path : Path) (value : Value) :
    (t.setAt path value).2 = (write t.document path value t.context).2 := by
  unfold setAt
  split <;> next hw => exact (congrArg Prod.snd hw).symm

variable {P : List String → Prop} (hP : KeysLast P) {t : Tree σ} (h : t.document.Keyed P)

include hP h

theorem keyed_setAt (path : Path) {value : Value} (hv : value.Keyed P) :
    (t.setAt path value).1.document.Keyed P := by
  rw [document_setAt, write]
  split
  · exact h
  · next hr =>
    refine keyed_writeFrom hP hv h fun segment hs => ?_
    rwa [Path.last?, hs] at hr

theorem keyed_clearAt (path : Path) : (t.clearAt path).1.document.Keyed P := by
  have hnil : (Value.obj []).Keyed P := .obj hP.nil fun _ he => absurd he List.not_mem_nil
  unfold clearAt
  split
  · exact hnil
  · exact keyed_setAt hP h path hnil

end Tree

namespace Traffic

variable {σ : Type} {P : List String → Prop} {s : Traffic σ}

/-- A read leaves the document, both where it begins and where it goes on. -/
theorem Recorded.document_start {ops : List CacheOp} (hs : s.Recorded ops) (base : Path) (text : String)
    (asked : ReadOptions) : (s.act (.start base text asked)).tree.document = s.tree.document := by
  obtain ⟨shared, reads, hs⟩ := hs
  obtain ⟨_, -, hreads⟩ := hs.start base text asked
  exact hreads.document_eq

theorem Recorded.document_poll {ops : List CacheOp} (hs : s.Recorded ops) (place : Nat) :
    (s.act (.poll place)).tree.document = s.tree.document := by
  obtain ⟨shared, reads, hs⟩ := hs
  obtain ⟨_, -, hreads⟩ := hs.poll place
  exact hreads.document_eq

/-- Only writes and removals come by another document. -/
theorem keyed_act (hP : KeysLast P) {ops : List CacheOp} (hs : s.Recorded ops)
    (h : s.tree.document.Keyed P) {a : Act σ} (ha : a.Writes P) :
    (s.act a).tree.document.Keyed P := by
  cases a with
  | start base text asked => rwa [hs.document_start]
  | poll place => rwa [hs.document_poll]
  | set base text value =>
    simp only [act, Tree.set]
    split
    · exact Tree.keyed_setAt hP h _ ha
    · exact h
  | delete base text =>
    simp only [act, Tree.delete]
    split
    · exact Tree.keyed_deleteAt hP.erase h _
    · exact h
  | clear base text =>
    simp only [act, Tree.clear]
    split
    · exact Tree.keyed_clearAt hP h _
    · exact h
  | clearCache | setContext | host => exact h

theorem keyed_run (hP : KeysLast P) {ops : List CacheOp} (hs : s.Recorded ops)
    (h : s.tree.document.Keyed P) {acts : List (Act σ)} (ha : ∀ a ∈ acts, a.Writes P) :
    (s.run acts).tree.document.Keyed P := by
  induction acts generalizing s ops with
  | nil => exact h
  | cons a rest ih =>
    obtain ⟨ha, hrest⟩ := List.forall_mem_cons.1 ha
    obtain ⟨more, hrec, -⟩ := hs.act a
    exact ih hrec (keyed_act hP hs h ha) hrest

/-- In every state that a tree comes to by writes of values without repeated keys, its document has
none. -/
theorem distinct_run {document : Value} (options : Options σ) (host : σ) (hd : document.Distinct)
    {acts : List (Act σ)} (ha : ∀ a ∈ acts, a.Writes List.Nodup) :
    ((idle (Tree.ofDocument document options host)).run acts).tree.document.Distinct :=
  keyed_run keysLast_nodup (recorded_idle document options host) hd ha

end Traffic

end LiveDoc
