import LiveDoc.Proofs.Landing
import Mathlib

/-! # Reserved keys

A document without reserved keys stays without them, whatever is written to it, removed from it and
read from it, and also where a write fails half-way. A write is refused for a reserved name exactly if
its last segment spells one, or if on its way it would create a mapping under one.
-/

namespace LiveDoc

/-- A key spells a reserved name: that is its base name, whatever marker and tags it has. -/
def Spells (key name : String) : Prop :=
  name ∈ reservedNames ∧ (VariantKey.parse key).base = name

instance (key name : String) : Decidable (Spells key name) :=
  inferInstanceAs (Decidable (_ ∧ _))

/-- No key among the keys has a reserved base name. -/
def FreeKeys (keys : List String) : Prop :=
  ∀ key ∈ keys, (VariantKey.parse key).base ∉ reservedNames

instance (keys : List String) : Decidable (FreeKeys keys) :=
  inferInstanceAs (Decidable (∀ key ∈ keys, (VariantKey.parse key).base ∉ reservedNames))

/-- In no mapping of the value a key has a reserved base name. -/
def Value.Unreserved (v : Value) : Prop :=
  v.Keyed FreeKeys

/-- Before its last segment a write comes to a mapping that has no key for a segment, and the segment
spells a reserved name. -/
inductive Meets (name : String) : Context → Value → List String → Prop where
  | here {context : Context} {members : Members} {segment next : String} {rest : List String}
    (selected : selectKey members segment context = none) (spelled : Spells segment name) :
    Meets name context (.obj members) (segment :: next :: rest)
  | further {context : Context} {current : Value} {segment next : String} {rest : List String}
    {d : Descent} (enters : Enters context current segment d)
    (below : Meets name d.context d.child (next :: rest)) :
    Meets name context current (segment :: next :: rest)

/-! ## Keys -/

section

variable {key name : String} {keys : List String}

theorem reservedName?_eq_some_iff : reservedName? key = some name ↔ Spells key name := by
  unfold Spells
  rw [VariantKey.base_parse]
  constructor
  · intro h
    simp only [reservedName?, Option.ite_none_right_eq_some, Option.some.injEq] at h
    obtain ⟨hmem, rfl⟩ := h
    exact ⟨hmem, rfl⟩
  · rintro ⟨hmem, rfl⟩
    exact if_pos hmem

theorem reservedName?_eq_none_iff :
    reservedName? key = none ↔ (VariantKey.parse key).base ∉ reservedNames := by
  rw [VariantKey.base_parse]
  simp [reservedName?]

/-- Marker and tags do not hide a reserved name. -/
example : Spells ".keys:es:f" "keys" := by decide

/-- Keys stay free of reserved names where a key goes, and where a key comes that spells none. -/
theorem keysLast_free : KeysLast FreeKeys where
  nil := List.forall_mem_nil _
  append := by
    intro keys key h _ hr k hk
    rcases List.mem_append.1 hk with hk | hk
    · exact h k hk
    · rw [List.mem_singleton.1 hk]
      exact reservedName?_eq_none_iff.1 hr
  erase := by
    intro keys key h k hk
    exact h k (List.mem_of_mem_erase hk)

end

/-! ## Refused writes -/

section

variable {value current : Value} {path : Path} {context : Context} {segment next name : String}
  {rest segments : List String} {d : Descent}

theorem writeLast_ne_reserved : writeLast value path current segment ≠ .error (.reservedKey name) := by
  intro h
  cases current with
  | arr items =>
    simp only [writeLast, indexAt, bind, Except.bind] at h
    cases hi : Numeral.index? segment with
    | none => simp [hi] at h
    | some i =>
      simp only [hi] at h
      split at h
      · cases h
      · split at h <;> cases h
  | _ => cases h

/-- A segment before the last is refused for a reserved name exactly if a mapping would be created
under it. -/
theorem descent_eq_reserved_iff :
    descent path context current segment = .error (.reservedKey name) ↔
      ∃ members, current = .obj members ∧ selectKey members segment context = none ∧
        Spells segment name := by
  constructor
  · intro h
    unfold descent at h
    split at h
    · next members =>
      split at h
      · split at h
        · cases h
        · split at h <;> cases h
      · next hs =>
        split at h
        · next found hr =>
          cases h
          exact ⟨members, rfl, hs, reservedName?_eq_some_iff.1 hr⟩
        · cases h
    · split at h
      · next e hi =>
        unfold indexAt at hi
        split at hi <;> simp_all
      · split at h <;> cases h
    · cases h
  · rintro ⟨members, rfl, hs, hn⟩
    simp [descent, hs, reservedName?_eq_some_iff.2 hn]

theorem not_meets_nil : ¬ Meets name context current [] := by
  intro h
  cases h

theorem Enters.meets_iff (h : Enters context current segment d) :
    Meets name context current (segment :: next :: rest) ↔
      Meets name d.context d.child (next :: rest) := by
  constructor
  · intro hm
    cases hm with
    | here hs hn =>
      cases h with
      | member hs' =>
        rw [hs] at hs'
        cases hs'
      | created _ hr =>
        rw [reservedName?_eq_some_iff.2 hn] at hr
        cases hr
    | further h' hb => exact h.unique h' ▸ hb
  · intro hb
    exact .further h hb

/-- Below a value a write is refused for a reserved name exactly if it meets one on its way. -/
theorem writeFrom_eq_reserved_iff :
    (writeFrom value path context current segments).2 = .error (.reservedKey name) ↔
      Meets name context current segments := by
  induction segments generalizing path context current with
  | nil =>
    constructor
    · intro h
      cases h
    · intro h
      cases h
  | cons segment rest ih =>
    cases rest with
    | nil =>
      constructor
      · intro h
        cases hw : writeLast value path current segment with
        | error e =>
          simp only [writeFrom, hw, Except.error.injEq] at h
          exact absurd (h ▸ hw) writeLast_ne_reserved
        | ok written => simp [writeFrom, hw] at h
      · intro h
        cases h
    | cons next rest =>
      cases hd : descent path context current segment with
      | error e =>
        simp only [writeFrom, hd, Except.error.injEq]
        constructor
        · rintro rfl
          obtain ⟨members, rfl, hs, hn⟩ := descent_eq_reserved_iff.1 hd
          exact .here hs hn
        · intro h
          cases h with
          | here hs hn =>
            rw [descent_eq_reserved_iff.2 ⟨_, rfl, hs, hn⟩] at hd
            exact (Except.error.inj hd).symm
          | further hent _ =>
            rw [descent_eq_ok.2 hent] at hd
            cases hd
      | ok d =>
        have hent := descent_eq_ok.1 hd
        rw [writeFrom_cons_cons hent, hent.meets_iff]
        exact ih

end

namespace Tree

variable {σ : Type} {t : Tree σ} {base path : Path} {text name : String} {value : Value}

/-- The last segment of a path spells a reserved name. -/
def EndsIn (path : Path) (name : String) : Prop :=
  ∃ last, path.last? = some last ∧ Spells last name

/-- A write at a path comes upon a reserved name: at its end, or else on its way. -/
def ComesUpon (t : Tree σ) (path : Path) (name : String) : Prop :=
  EndsIn path name ∨ (∀ other, ¬ EndsIn path other) ∧
    Meets name (t.context.merge (Context.own t.document)) t.document path.segments

/-- A write to a path text comes upon a reserved name. -/
def Refuses (t : Tree σ) (base : Path) (text name : String) : Prop :=
  ∃ path, base.resolve text = .ok path ∧ t.ComesUpon path name

theorem setAt_eq_reserved_iff :
    (t.setAt path value).2 = .error (.reservedKey name) ↔ t.ComesUpon path name := by
  have hends (other : String) : EndsIn path other ↔ path.last?.bind reservedName? = some other := by
    simp only [EndsIn, Option.bind_eq_some_iff, reservedName?_eq_some_iff]
  simp only [outcome_setAt, ComesUpon, hends, write]
  split
  · next found hr => simp [hr]
  · next hr => simp [hr, writeFrom_eq_reserved_iff]

theorem set_eq_reserved_iff :
    (t.set base text value).2 = .error (.reservedKey name) ↔ t.Refuses base text name := by
  unfold set Refuses
  cases hp : base.resolve text with
  | error e => simp
  | ok path => simp only [setAt_eq_reserved_iff, Except.ok.injEq, exists_eq_left']

theorem clear_eq_reserved_iff :
    (t.clear base text).2 = .error (.reservedKey name) ↔ t.Refuses base text name := by
  unfold clear Refuses
  cases hp : base.resolve text with
  | error e => simp
  | ok path =>
    simp only [clearAt, Except.ok.injEq, exists_eq_left']
    split
    · next hroot =>
      -- The root is cleared whatever it holds, and names nothing.
      have hsegments := List.isEmpty_iff.1 hroot
      constructor
      · intro h
        cases h
      · rintro (⟨last, hlast, -⟩ | ⟨-, hmeets⟩)
        · simp [Path.last?, hsegments] at hlast
        · exact absurd (hsegments ▸ hmeets) not_meets_nil
    · exact setAt_eq_reserved_iff

end Tree

namespace Traffic

variable {σ : Type}

/-- From a document without reserved keys a tree comes to none with such a key by acts that write values
without reserved keys, whether the acts go through or fail. On the way sets and clears are refused for
a reserved name exactly where they spell one at the end or meet one before. -/
theorem reserved_keys_kept_out {document : Value} (options : Options σ) (host : σ)
    (hd : document.Unreserved) {acts : List (Act σ)} (ha : ∀ a ∈ acts, a.Writes FreeKeys) :
    let reached (front : List (Act σ)) := ((idle (Tree.ofDocument document options host)).run front).tree
    (∀ front back, acts = front ++ back → (reached front).document.Unreserved) ∧
    ∀ front base text value name,
      (((reached front).set base text value).2 = .error (.reservedKey name) ↔
        (reached front).Refuses base text name) ∧
      (((reached front).clear base text).2 = .error (.reservedKey name) ↔
        (reached front).Refuses base text name) := by
  intro reached
  constructor
  · rintro front back rfl
    have hfront : ∀ a ∈ front, a.Writes FreeKeys := by
      intro a hm
      exact ha a (List.mem_append_left back hm)
    exact keyed_run keysLast_free (recorded_idle document options host) hd hfront
  · intro front base text value name
    exact ⟨Tree.set_eq_reserved_iff, Tree.clear_eq_reserved_iff⟩

/-- A write that comes upon a reserved name on its way leaves a mapping behind, and no reserved key. -/
theorem reserved_keys_kept_out_stranded :
    let t : Tree Unit := .ofDocument (.obj [("a:es", .str "b")]) .default ()
    let acts : List (Act Unit) := [.set .root "x..get:es.y" (.num (.int 1)), .clear .root "x.keys"]
    t.Refuses .root "x..get:es.y" "get" ∧
      ((idle t).run acts).tree.document = .obj [("a:es", .str "b"), ("x", .obj [])] ∧
      ((idle t).run acts).tree.document.Unreserved := by
  intro t acts
  have hd : (Value.obj [("a:es", .str "b")]).Unreserved :=
    Value.Keyed.obj_iff.2 ⟨by decide, by simp⟩
  have ha : ∀ a ∈ acts, a.Writes FreeKeys := by
    simp [acts, Act.Writes, Value.Keyed.num]
  have hkept := reserved_keys_kept_out (.default : Options Unit) () hd ha
  have hset : (t.set .root "x..get:es.y" (.num (.int 1))).2 = .error (.reservedKey "get") := by cbv
  have hdocument : ((idle t).run acts).tree.document =
      .obj [("a:es", .str "b"), ("x", .obj [])] := by cbv
  constructor
  · exact (hkept.2 [] .root "x..get:es.y" (.num (.int 1)) "get").1.1 hset
  · exact ⟨hdocument, hkept.1 acts [] (List.append_nil acts).symm⟩

end Traffic

end LiveDoc
