import LiveDoc.Proofs.Moments
import LiveDoc.Proofs.Reading
import Mathlib

/-! # What a read shows of a mapping

A mapping is read slot by slot. The object that a read comes to has the names of the slots that a key
fills, each once. The key that declares the context is left out by its text, not by its slot, so the
name of that slot appears where another key belongs to it.
-/

namespace LiveDoc

variable {σ α β : Type}

/-! ## Parts that are read in turn -/

/-- The task can come to a value in some world that holds the same document under the same context. -/
def Task.Yields (t : Task σ (Except Fault α)) (w : World σ) (a : α) : Prop :=
  ∃ s v s' v', v.document = w.document ∧ v.context = w.context ∧ t.Runs s v (.ok a) s' v'

theorem Task.Yields.of_eq {t : Task σ (Except Fault α)} {w w' : World σ} {a : α} (h : t.Yields w' a)
    (hd : w'.document = w.document) (hc : w'.context = w.context) : t.Yields w a := by
  obtain ⟨s, v, s', v', hdocument, hcontext, hrun⟩ := h
  exact ⟨s, v, s', v', hdocument.trans hd, hcontext.trans hc, hrun⟩

namespace Request

variable {request : Request σ} {evaluate : Evaluator σ} {w : World σ} {fresh : Bool} {levels : Nat}

theorem yields_done {a b : α}
    (h : (request.follow evaluate (.done (.ok a))).Yields w b) : b = a := by
  obtain ⟨s, v, s', v', -, -, hrun⟩ := h
  exact Except.ok.inj (Task.runs_pure_iff.1 hrun).1

theorem yields_map {p : Plan α} {g : α → β} {b : β}
    (h : (request.follow evaluate (p.bind fun a => .done (.ok (g a)))).Yields w b) :
    ∃ a, b = g a ∧ (request.follow evaluate p).Yields w a := by
  obtain ⟨s, v, s', v', hd, hc, hrun⟩ := h
  rcases runs_follow_bind.1 hrun with ⟨_, hr, -⟩ | ⟨a, s₁, v₁, hfirst, hrun⟩
  · cases hr
  obtain ⟨hb, -, -⟩ := Task.runs_pure_iff.1 hrun
  exact ⟨a, Except.ok.inj hb, s, v, s₁, v₁, hd, hc, hfirst⟩

theorem yields_find {path : Path} {next : Found → Plan α} {a : α}
    (h : (request.follow evaluate (.find path next)).Yields w a) :
    (request.follow evaluate (next (request.foundAt w path))).Yields w a := by
  obtain ⟨s, v, s', v', hd, hc, hrun⟩ := h
  have hfound := runs_follow_find hrun
  rw [foundAt, hd, hc] at hfound
  exact ⟨_, v, s', v', hd, hc, hfound⟩

/-- What is gathered is what the items come to in turn. -/
theorem yields_gather (hev : request.Steadily evaluate) {item : α → Plan β} {as : List α} {bs : List β}
    (h : (request.follow evaluate (Plan.gather item as)).Yields w bs) :
    List.Forall₂ (fun a b => (request.follow evaluate (item a)).Yields w b) as bs := by
  induction as generalizing bs with
  | nil =>
    obtain rfl := yields_done h
    exact .nil
  | cons a rest ih =>
    obtain ⟨s, v, s', v', hd, hc, hrun⟩ := h
    rcases runs_follow_bind.1 hrun with ⟨_, hr, -⟩ | ⟨b, s₁, v₁, hitem, hrun⟩
    · cases hr
    have hsteady := follow_steady hev hitem
    obtain ⟨bs', rfl, hrest⟩ := yields_map
      ⟨s₁, v₁, s', v', hsteady.document.trans hd, hsteady.context.trans hc, hrun⟩
    exact .cons ⟨s, v, s₁, v₁, hd, hc, hitem⟩ (ih hrest)

/-- A slot is shown under its name, as `null` if there is nothing at its place. -/
theorem yields_slotPart {slot : String × Path} {member : String × Value}
    (h : (request.follow evaluate (Plan.slotPart fresh levels slot)).Yields w member) :
    ∃ shown : Option Value, member = (slot.1, shown.getD .null) ∧
      (request.follow evaluate (Plan.descend fresh levels (request.foundAt w slot.2))).Yields w
        shown := by
  obtain ⟨shown, rfl, hfind⟩ := yields_map h
  exact ⟨shown, rfl, yields_find hfind⟩

/-- A mapping is shown as an object with a member for each slot. -/
theorem yields_mapping (hev : request.Steadily evaluate) {slots : List (String × Path)} {k : Nat}
    {shown : Option Value} (h : (request.follow evaluate
      (Plan.descend fresh (levels + 1) (.mapping slots k))).Yields w shown) :
    ∃ members, shown = some (.obj (Assoc.ofList members)) ∧ List.Forall₂ (fun slot member =>
      (request.follow evaluate (Plan.slotPart fresh levels slot)).Yields w member) slots members := by
  obtain ⟨members, rfl, hgather⟩ := yields_map h
  exact ⟨members, rfl, yields_gather hev hgather⟩

theorem names_of_slotParts {slots : List (String × Path)} {members : List (String × Value)}
    (h : List.Forall₂ (fun slot member =>
      (request.follow evaluate (Plan.slotPart fresh levels slot)).Yields w member) slots members) :
    members.map (·.1) = slots.map (·.1) := by
  induction h with
  | nil => rfl
  | cons hslot _ ih =>
    obtain ⟨shown, rfl, -⟩ := yields_slotPart hslot
    rw [List.map_cons, List.map_cons, ih]

end Request

/-! ## The names that are shown -/

/-- The slots that a key of a mapping fills under a context, that of the context itself left out, in the
order of their first keys. -/
def filledSlots (members : Members) (context : Context) : List String :=
  ((members.map (·.1)).map slotName).eraseDups.filter fun name =>
    name != contextKey && (resolveVariant name context (members.map (·.1))).isSome

/-- A key that is not `$context` itself belongs to the slot of that name. -/
def RespellsContext (members : Members) : Prop :=
  ∃ key ∈ members.map (·.1), key ≠ contextKey ∧ slotName key = contextKey

variable {members : Members} {context inner : Context} {path place : Path}

instance : Decidable (RespellsContext members) :=
  inferInstanceAs (Decidable (∃ key ∈ members.map (·.1), key ≠ contextKey ∧ slotName key = contextKey))

theorem contextKey_mem_baseNames_iff : contextKey ∈ baseNames members ↔ RespellsContext members := by
  rw [baseNames, List.mem_eraseDups]
  simp only [RespellsContext, List.mem_map, List.mem_filter, bne_iff_ne, and_assoc]

/-- Only the name of the context's slot tells the base names from the slots of all keys. -/
theorem baseNames_filter (members : Members) :
    (baseNames members).filter (· != contextKey) =
      ((members.map (·.1)).map slotName).eraseDups.filter (· != contextKey) := by
  have hself : slotName contextKey = contextKey := slotName_of_bare (by decide)
  have hkeys (keys : List String) : ((keys.filter (· != contextKey)).map slotName).filter
      (· != contextKey) = (keys.map slotName).filter (· != contextKey) := by
    rw [List.filter_map, List.filter_map, List.filter_filter]
    congr 1
    apply List.filter_congr
    intro key _
    by_cases hk : key = contextKey <;> simp [hk, hself]
  rw [baseNames, ← eraseDups_filter, hkeys, eraseDups_filter]

theorem slotsOf_names (path : Path) (context : Context) (members : Members) :
    (Found.slotsOf path context members).map (·.1) = (baseNames members).filter fun name =>
      (resolveVariant name context (members.map (·.1))).isSome := by
  rw [Found.slotsOf, List.map_filterMap, ← List.filterMap_eq_filter]
  apply List.filterMap_congr
  intro name _
  cases hkey : resolveVariant name context (members.map (·.1)) <;> simp [Option.guard, hkey]

theorem slotsOf_names_filter (path : Path) (context : Context) (members : Members) :
    ((Found.slotsOf path context members).map (·.1)).filter (· != contextKey) =
      filledSlots members context := by
  rw [slotsOf_names, List.filter_comm, baseNames_filter, List.filter_filter, filledSlots]
  simp only [Bool.and_comm]

theorem contextKey_mem_slotsOf_iff : contextKey ∈ (Found.slotsOf path context members).map (·.1) ↔
    RespellsContext members ∧
      (resolveVariant contextKey context (members.map (·.1))).isSome = true := by
  rw [slotsOf_names, List.mem_filter, contextKey_mem_baseNames_iff]

/-- What a mapping is shown as has the names of the slots that a key fills. -/
theorem Request.shown_of_yields {request : Request σ} {w : World σ} {left levels : Nat} {fresh : Bool}
    {found : Option Value} (hlevels : levels ≠ 0) (h : (request.follow (request.evaluate left)
      (Plan.descend fresh levels (.ofLocated (.static place (.obj members) inner)))).Yields w found) :
    ∃ shown, found = some (.obj shown) ∧
      shown.map (·.1) = (Found.slotsOf place inner members).map (·.1) ∧
      List.Forall₂ (fun slot member => (request.follow (request.evaluate left)
        (Plan.slotPart fresh (levels - 1) slot)).Yields w member)
        (Found.slotsOf place inner members) shown := by
  obtain ⟨levels, rfl⟩ := Nat.exists_eq_succ_of_ne_zero hlevels
  obtain ⟨shown, rfl, hparts⟩ := yields_mapping (request.evaluate_steady left) h
  have hnames := names_of_slotParts hparts
  have hnodup : (shown.map (·.1)).Nodup := hnames ▸ nodup_slotsOf place inner members
  exact ⟨shown, by rw [Assoc.ofList_of_nodup hnodup], hnames, hparts⟩

namespace Tree

variable {t t' : Tree σ} {base : Path} {text : String} {asked : ReadOptions} {v : Option Value}

/-- The names of the slots of a mapping under the global context. -/
theorem keysAt_mapping
    (hl : locate t.world.document path t.world.context = .static place (.obj members) inner) :
    t.keysAt path = baseNames members := by
  rw [keysAt, hl]

/-- A read of a mapping comes to an object with the slots that a key fills, each once and in the order of
their first keys. It shows the name of the context's slot exactly if a key other than `$context` belongs to
that slot and a key wins there; where the slots of a mapping are named without being read, the former is
enough. -/
theorem mapping_shown (hi : t.inflight = []) (hp : base.resolve text = .ok path)
    (hl : locate t.world.document path (t.world.context.merge asked.own) =
      .static place (.obj members) inner)
    (hg : t.Gives base text asked (.ok v) t') :
    (∃ shown, v = some (.obj shown) ∧ (shown.map (·.1)).Nodup ∧
      (shown.map (·.1)).filter (· != contextKey) = filledSlots members inner ∧
      (shown.map (·.1) = filledSlots members inner ↔ contextKey ∉ shown.map (·.1)) ∧
      (contextKey ∈ shown.map (·.1) ↔ RespellsContext members ∧
        (resolveVariant contextKey inner (members.map (·.1))).isSome = true)) ∧
    ∀ place' members' inner', locate t.world.document path t.world.context =
      .static place' (.obj members') inner' →
        (contextKey ∈ t.keysAt path ↔ RespellsContext members') := by
  constructor
  · rcases hg.cases hi with ⟨_, -, hr, -⟩ | ⟨path', hp', he, -, -⟩
    · cases hr
    obtain rfl : path' = path := Except.ok.inj (hp'.symm.trans hp)
    obtain ⟨result, stack, hrun, hr⟩ := Request.ends_read he
    cases result with
    | error fault => cases hr
    | ok found =>
      have hfound := Request.yields_find ⟨_, _, _, _, rfl, rfl, hrun⟩
      have hl : locate t.world.document path' (t.world.context.merge (t.request asked).context) =
          .static place (.obj members) inner := hl
      rw [Request.foundAt, hl] at hfound
      obtain ⟨shown, rfl, hnames, -⟩ := Request.shown_of_yields (Nat.succ_ne_zero _) hfound
      have hfilter : (shown.map (·.1)).filter (· != contextKey) = filledSlots members inner := by
        rw [hnames, slotsOf_names_filter]
      have hself : (shown.map (·.1)).filter (· != contextKey) = shown.map (·.1) ↔
          contextKey ∉ shown.map (·.1) := by
        rw [List.filter_eq_self]
        exact ⟨fun h hm => by simpa using h _ hm, fun h name hm => bne_iff_ne.2 fun hn => h (hn ▸ hm)⟩
      refine ⟨shown, Except.ok.inj hr, ?_, hfilter, ?_, ?_⟩
      · rw [hnames]
        exact nodup_slotsOf place inner members
      · rw [← hself, hfilter, eq_comm]
      · rw [hnames, contextKey_mem_slotsOf_iff]
  · intro place' members' inner' hl'
    rw [keysAt_mapping hl', contextKey_mem_baseNames_iff]

/-- A menu that declares Spanish, with a title in two languages and a note in French only. -/
def translatedMenu : Members :=
  [("$context", .obj [("lang", .str "es")]), ("title", .str "Menu"), ("title:es", .str "Carta"),
    ("note:fr", .str "Bonjour")]

/-- Of the menu only the title is shown. -/
theorem translated_menu_shown : ∃ shown t', (ofDocument (.obj [("menu", .obj translatedMenu)]) .default ()).Gives
    .root "menu" .default (.ok (some (.obj shown))) t' ∧ shown.map (·.1) = ["title"] := by
  let t : Tree Unit := ofDocument (.obj [("menu", .obj translatedMenu)]) .default ()
  have hl : locate t.world.document ⟨["menu"]⟩ (t.world.context.merge ReadOptions.default.own) =
      .static ⟨["menu"]⟩ (.obj translatedMenu) (.ofList [("lang", "es")]) := by
    cbv
  have hget : (t.get .root "menu" .default).2 = some (.ok (some (.obj [("title", .str "Carta")]))) := by
    cbv
  have hg := gives_of_get (Prod.ext rfl hget)
  obtain ⟨⟨shown, hv, -, -, hshown, hcontext⟩, -⟩ := mapping_shown rfl (by rfl) hl hg
  have hplain : ¬ RespellsContext translatedMenu := by
    decide
  have hfilled : filledSlots translatedMenu (.ofList [("lang", "es")]) = ["title"] := by
    cbv
  have hnames := hshown.2 (mt hcontext.1 fun h => hplain h.1)
  exact ⟨shown, _, hv ▸ hg, hnames.trans hfilled⟩

/-- A mapping with an expression for the slot that bears the name of the context. -/
def disguised : Members :=
  [(".$context", .str "${1}"), ("a", .num (.int 1))]

/-- The name of the context's slot is among the keys and in what is read. -/
theorem disguised_context_shown :
    locate (.obj [("m", .obj disguised)]) ⟨["m"]⟩ .empty = .static ⟨["m"]⟩ (.obj disguised) .empty ∧
      filledSlots disguised .empty = ["a"] ∧
      (ofDocument (.obj [("m", .obj disguised)]) .default ()).keysAt ⟨["m"]⟩ = ["$context", "a"] ∧
      ((ofDocument (.obj [("m", .obj disguised)]) .default ()).get .root "m" .default).2 =
        some (.ok (some (.obj [("$context", .num (.int 1)), ("a", .num (.int 1))]))) := by
  refine ⟨?_, ?_, ?_, ?_⟩
  · cbv
  · cbv
  · cbv
  · cbv

end Tree

end LiveDoc
