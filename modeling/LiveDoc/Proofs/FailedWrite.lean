import LiveDoc.Proofs.Descent
import LiveDoc.Tree

/-! # Failed writes

A write that fails leaves the document as it was, but for one case: it has created a mapping for a
segment without a key and then meets a reserved name among the segments before the last.
-/

namespace LiveDoc

/-- A write below a value creates a mapping and then meets a reserved name on its way. -/
inductive Strands : Context → Value → List String → Prop where
  | create {context : Context} {members : Members} {segment : String} {rest : List String}
    (selected : selectKey members segment context = none) (named : reservedName? segment = none)
    (reserved : ∃ s ∈ rest.dropLast, (reservedName? s).isSome) :
    Strands context (.obj members) (segment :: rest)
  | member {context : Context} {members : Members} {segment key : String} {child : Value}
    {rest : List String} (selected : selectKey members segment context = some key)
    (plain : isMarked key = false) (found : members.lookup key = some child)
    (below : Strands (context.merge (Context.own child)) child rest) :
    Strands context (.obj members) (segment :: rest)
  | item {context : Context} {items : List Value} {segment : String} {i : Nat} {child : Value}
    {rest : List String} (index : Numeral.index? segment = some i)
    (found : items[i]? = some child) (below : Strands context child rest) :
    Strands context (.arr items) (segment :: rest)

/-- Only a write with two segments or more strands, and it enters something first. -/
theorem Strands.enters {context : Context} {current : Value} {segment : String}
    {rest : List String} (h : Strands context current (segment :: rest)) :
    rest ≠ [] ∧ ∃ d, Enters context current segment d := by
  cases h with
  | create hs hr hm =>
    refine ⟨?_, _, .created hs hr⟩
    rintro rfl
    simp at hm
  | member hs hm hl hb =>
    refine ⟨?_, _, .member hs hm hl⟩
    rintro rfl
    cases hb
  | item hi hc hb =>
    refine ⟨?_, _, .item hi hc⟩
    rintro rfl
    cases hb

theorem strands_member_iff {context : Context} {members : Members} {segment key : String}
    {child : Value} {rest : List String} (hs : selectKey members segment context = some key)
    (hm : isMarked key = false) (hl : members.lookup key = some child) :
    Strands context (.obj members) (segment :: rest) ↔
      Strands (context.merge (Context.own child)) child rest := by
  refine ⟨fun hst => ?_, .member hs hm hl⟩
  cases hst with
  | create hs' => simp [hs] at hs'
  | member hs' _ hl' hb =>
    obtain rfl : key = _ := Option.some.inj (hs.symm.trans hs')
    obtain rfl : child = _ := Option.some.inj (hl.symm.trans hl')
    exact hb

theorem strands_item_iff {context : Context} {items : List Value} {segment : String} {i : Nat}
    {child : Value} {rest : List String} (hi : Numeral.index? segment = some i)
    (hc : items[i]? = some child) :
    Strands context (.arr items) (segment :: rest) ↔ Strands context child rest := by
  refine ⟨fun hst => ?_, .item hi hc⟩
  cases hst with
  | item hi' hc' hb =>
    obtain rfl : i = _ := Option.some.inj (hi.symm.trans hi')
    obtain rfl : child = _ := Option.some.inj (hc.symm.trans hc')
    exact hb

theorem writeFrom_cons_cons {path : Path} {context : Context} {current : Value}
    {segment next : String} {d : Descent} (h : Enters context current segment d) (value : Value)
    (rest : List String) :
    writeFrom value path context current (segment :: next :: rest) =
      let below := writeFrom value (path.child segment) d.context d.child (next :: rest)
      (d.rebuild below.1, below.2) := by
  simp only [writeFrom, descent_eq_ok.2 h]

/-- Below a mapping that was just created a write fails at a reserved name only. -/
theorem writeFrom_obj_nil_error_iff (value : Value) (path : Path) (context : Context)
    {segments : List String} (h : segments ≠ []) :
    (∃ e, (writeFrom value path context (.obj []) segments).2 = .error e) ↔
      ∃ s ∈ segments.dropLast, (reservedName? s).isSome := by
  induction segments generalizing path context with
  | nil => exact absurd rfl h
  | cons segment rest ih =>
    cases rest with
    | nil => simp [writeFrom, writeLast]
    | cons next rest =>
      cases hr : reservedName? segment with
      | some name => simp [writeFrom, descent, hr]
      | none =>
        rw [writeFrom_cons_cons (.created (selectKey_nil _ _) hr)]
        simpa [hr] using ih (path.child segment) _ (List.cons_ne_nil next rest)

/-- A failed write leaves the value as it was unless it strands. -/
theorem writeFrom_error_iff {value : Value} {path : Path} {context : Context} {current : Value}
    {segments : List String} {e : WriteError}
    (h : (writeFrom value path context current segments).2 = .error e) :
    (writeFrom value path context current segments).1 = current ↔
      ¬ Strands context current segments := by
  fun_induction writeFrom value path context current segments with
  | case1 path context current => exact iff_of_true rfl fun hs => by cases hs
  | case2 => cases h
  | case3 path context current segment e' hl =>
    exact iff_of_true rfl fun hs => hs.enters.1 rfl
  | case4 path context current segment next rest e' hd =>
    refine iff_of_true rfl fun hs => ?_
    obtain ⟨-, d, hent⟩ := hs.enters
    rw [descent_eq_ok.2 hent] at hd
    cases hd
  | case5 path context current segment next rest d hd written outcome hw ih =>
    rw [hw] at ih
    cases descent_eq_ok.1 hd with
    | @member members segment key child hs hm hl =>
      rw [strands_member_iff hs hm hl, ← ih h, Value.obj.injEq, Assoc.put_eq_self_iff, hl, Option.some.injEq, eq_comm]
    | @created members segment hs hr =>
      have hne : Value.obj (Assoc.put segment written members) ≠ .obj members := by
        rw [ne_eq, Value.obj.injEq, Assoc.put_eq_self_iff, lookup_of_selectKey_eq_none hs]
        simp
      refine iff_of_false hne (not_not.2 (.create hs hr ?_))
      exact (writeFrom_obj_nil_error_iff value (path.child segment) _ (List.cons_ne_nil next rest)).1
        ⟨e, by rw [hw]; exact h⟩
    | @item items segment i child hi hc =>
      obtain ⟨hlt, hget⟩ := List.getElem?_eq_some_iff.1 hc
      rw [strands_item_iff hi hc, ← ih h, Value.arr.injEq]
      constructor
      · intro he
        have hset : (items.set i written)[i]? = some child := by rw [he, hc]
        rw [List.getElem?_set_self hlt] at hset
        exact Option.some.inj hset
      · intro he
        have hgetw : items[i] = written := hget.trans he.symm
        rw [← hgetw, List.set_getElem_self]

namespace Tree

variable {σ : Type}

/-- A write to a path text creates a mapping and then meets a reserved name before the last
segment. -/
def Strands (t : Tree σ) (base : Path) (text : String) : Prop :=
  ∃ path, base.resolve text = .ok path ∧ path.last?.bind reservedName? = none ∧
    LiveDoc.Strands (t.world.context.merge (Context.own t.world.document)) t.world.document
      path.segments

theorem setAt_error_iff {t : Tree σ} {path : Path} {value : Value} {e : WriteError}
    (h : (t.setAt path value).2 = .error e) :
    (t.setAt path value).1 = t ↔ ¬ (path.last?.bind reservedName? = none ∧
      LiveDoc.Strands (t.world.context.merge (Context.own t.world.document)) t.world.document
        path.segments) := by
  unfold setAt at h ⊢
  have hdoc {document : Value} :
      { t with world := { t.world with document := document } } = t ↔
        document = t.world.document := by
    obtain ⟨_, ⟨⟩, _⟩ := t
    simp
  cases hr : path.last?.bind reservedName? with
  | some name =>
    simp only [write, hr]
    simp
  | none =>
    have hw : write t.world.document path value t.world.context = writeFrom value .root
        (t.world.context.merge (Context.own t.world.document)) t.world.document path.segments := by
      rw [write, hr]
    rw [hw] at h ⊢
    rcases hf : writeFrom value .root (t.world.context.merge (Context.own t.world.document))
      t.world.document path.segments with ⟨document, outcome | e'⟩
    · simp only [hf] at h ⊢
      have hiff := writeFrom_error_iff (congrArg (·.2) hf)
      rw [hf] at hiff
      rw [hdoc, hiff]
      simp
    · simp [hf] at h

theorem clearAt_error_iff {t : Tree σ} {path : Path} {e : WriteError}
    (h : (t.clearAt path).2 = .error e) :
    (t.clearAt path).1 = t ↔ ¬ (path.last?.bind reservedName? = none ∧
      LiveDoc.Strands (t.world.context.merge (Context.own t.world.document)) t.world.document
        path.segments) := by
  unfold clearAt at h ⊢
  split at h
  · cases h
  · next hp => rw [if_neg hp]; exact setAt_error_iff h

/-- A failed write leaves the tree as it was exactly if it has created nothing on its way to a
reserved name. -/
theorem failed_write_leaves_tree_iff (t : Tree σ) (base : Path) (text : String) (value : Value)
    (e : WriteError) :
    ((t.set base text value).2 = .error e →
      ((t.set base text value).1 = t ↔ ¬ t.Strands base text)) ∧
    ((t.clear base text).2 = .error e →
      ((t.clear base text).1 = t ↔ ¬ t.Strands base text)) := by
  unfold set clear Strands
  cases hp : base.resolve text with
  | error cause => simp
  | ok path =>
    simp only [Except.ok.injEq, exists_eq_left']
    exact ⟨setAt_error_iff, clearAt_error_iff⟩

/-- A reserved name at the end is refused before anything is created. -/
theorem failed_write_reserved_last :
    let t : Tree Unit := .ofDocument (.obj []) .default ()
    (t.set .root "x.get" .null).2 = .error (.reservedKey "get") ∧ (t.set .root "x.get" .null).1 = t := by
  intro t
  have hp : Path.root.resolve "x.get" = .ok ⟨["x", "get"]⟩ := by decide
  have hr : reservedName? "get" = some "get" := by decide
  have h : (t.set .root "x.get" .null).2 = .error (.reservedKey "get") := by
    simp only [set, hp, setAt, write, Path.last?, List.getLast?_cons_cons, List.getLast?_singleton,
      Option.bind_some, hr]
  refine ⟨h, ((failed_write_leaves_tree_iff t .root "x.get" .null _).1 h).2 ?_⟩
  rintro ⟨path, hpath, hlast, -⟩
  rw [hp] at hpath
  cases hpath
  simp [Path.last?, hr] at hlast

/-- A reserved name on the way is met after a mapping was created for the segment before it. -/
theorem failed_write_reserved_within :
    let t : Tree Unit := .ofDocument (.obj []) .default ()
    (t.set .root "x.get.y" .null).2 = .error (.reservedKey "get") ∧
      (t.set .root "x.get.y" .null).1.document = .obj [("x", .obj [])] ∧ t.document = .obj [] := by
  intro t
  have hp : Path.root.resolve "x.get.y" = .ok ⟨["x", "get", "y"]⟩ := by decide
  have hx : reservedName? "x" = none := by decide
  have hget : reservedName? "get" = some "get" := by decide
  have hy : reservedName? "y" = none := by decide
  have hs : t.setAt ⟨["x", "get", "y"]⟩ .null =
      ({ t with world := { t.world with document := .obj [("x", .obj [])] } },
        .error (.reservedKey "get")) := by
    simp only [setAt, write, Path.last?, List.getLast?_cons_cons, List.getLast?_singleton,
      Option.bind_some, hy, t, ofDocument, writeFrom, descent, selectKey_nil, hx, hget, Assoc.put]
  have hset : t.set .root "x.get.y" .null = t.setAt ⟨["x", "get", "y"]⟩ .null := by
    rw [set, hp]
  rw [hset, hs]
  exact ⟨rfl, rfl, rfl⟩

end Tree

end LiveDoc
