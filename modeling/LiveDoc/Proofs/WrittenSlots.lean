import LiveDoc.Proofs.ChangedPaths
import LiveDoc.Proofs.Landing
import LiveDoc.Proofs.Outliving

/-! # Written slots

A write changes what its path leads to, whichever way an index or a key is spelled there. What is kept
counts as stale only if it has read the slots as the write spells them.
-/

namespace LiveDoc.Tree

variable {σ : Type} {t₀ t t' : Tree σ} {f : String → List Value → Except String Value}
  {document value : Value} {options : Options σ} {host : σ} {path : Path} {text : String}

section

variable (hp : options.Pure f) (ha : options.Answers) (hnew : ofValue document options host = .ok t₀)
  (hreads : t₀.Reads t) (names : Path.root.resolve text = .ok path)
  (done : t.set .root text value = (t', .ok ()))

include hp hnew hreads names done in
/-- What a write that succeeds makes of a tree that was only read. -/
theorem set_eq_written : ∃ left,
    writeFrom value .root (options.context.merge (Context.own document)) document path.segments =
      (left, .ok ()) ∧ t' = t.written left path := by
  have hgrown := grown_of_reads hp hnew hreads
  obtain ⟨-, rfl⟩ := ofValue_eq_ok.1 hnew
  have hd : t.world.document = document := hgrown.document
  have hc : t.world.context = options.context := hgrown.context
  rw [Tree.set, names] at done
  obtain ⟨left, hw, rfl⟩ := setAt_eq_ok done
  rw [Tree.context, Tree.document, hd, hc] at hw
  exact ⟨left, hw, rfl⟩

include hp ha hnew hreads names done in
/-- A write leaves right what has read nothing at the places that it changes. -/
theorem readsAfter_changedPlaces {places : List Place}
    (hplaces : ∀ left,
      writeFrom value .root (options.context.merge (Context.own document)) document path.segments =
        (left, .ok ()) →
      changedPlaces (options.context.merge (Context.own document)) document path.segments = places) :
    t'.ReadsAfter (Place.Meets places ·.segments) path := by
  obtain ⟨left, hw, rfl⟩ := set_eq_written hp hnew hreads names done
  have hgrown := grown_of_reads hp hnew hreads
  have hc := writeFrom_changed hw fun s hs =>
    Path.spelled_of_resolve names s (List.mem_of_getLast? hs)
  rw [hplaces left hw] at hc
  obtain ⟨hm, rfl⟩ := ofValue_eq_ok.1 hnew
  have hdoc : t.document = document := hgrown.document
  exact hgrown.readsAfter_changed hp ha (hdoc ▸ hm) (hdoc ▸ hc) path

include hp ha hnew hreads names done in
/-- After plain reads of a new tree and a write, what has read the written item under another spelling
of its index may still be kept, and so may what has read the slot of a key that the write created on
its way; all else is read as on a new tree. -/
theorem set_readsAfter :
    t'.ReadsAfter (Place.Meets (changedPlaces (options.context.merge (Context.own document)) document
      path.segments) ·.segments) path :=
  readsAfter_changedPlaces hp ha hnew hreads names done fun _ _ => rfl

end

/-- A new tree with a pair of items and a quotation. -/
def pair (quotation : String) : Tree Unit :=
  ofDocument (.obj [("x", .arr [.str "a", .str "b"]), (".e", .str quotation)]) .default ()

/-- The pair after its quotation was read. -/
def pairQuoted (quotation : String) : Tree Unit :=
  ((pair quotation).get .root "e" .default).1

theorem kept_beside_other :
    ((pairQuoted "${x.0}").set .root "x.1" (.str "c")).1.world.cache.entries =
      [(⟨⟨[".e"]⟩, ""⟩, ⟨.str "a", 0,
        [⟨["x", "0"]⟩, ⟨["x", "$context"]⟩, ⟨["$context"]⟩, ⟨["e"]⟩]⟩)] := by
  cbv

/-- An item beside the written one is quoted as on a new tree. -/
theorem set_item_beside_other :
    ((pairQuoted "${x.0}").set .root "x.1" (.str "c")).2 = .ok () ∧
      ((pairQuoted "${x.0}").set .root "x.1" (.str "c")).1.ReadsExactly (· = .empty) := by
  have hp : (Options.default : Options Unit).Pure fun _ _ => .ok .null := ⟨rfl, nofun⟩
  have ha : (Options.default : Options Unit).Answers := nofun
  have hget : ((pair "${x.0}").get .root "e" .default).2 = some (.ok (some (.str "a"))) := by cbv
  have hreads : (pair "${x.0}").Reads (pairQuoted "${x.0}") :=
    .single (.read rfl (gives_of_get (Prod.ext rfl hget)))
  have hnames : Path.root.resolve "x.1" = .ok ⟨["x", "1"]⟩ := by decide
  have hdone : ((pairQuoted "${x.0}").set .root "x.1" (.str "c")).2 = .ok () := by cbv
  have hafter := set_readsAfter hp ha (ofValue_eq_ok.2 ⟨rfl, rfl⟩) hreads hnames
    (Prod.ext rfl hdone)
  have hplaces (context : Context) : changedPlaces context
      (.obj [("x", .arr [.str "a", .str "b"]), (".e", .str "${x.0}")]) ["x", "1"] =
        [.slot "x", .item 1] := by
    cbv
  rw [hplaces] at hafter
  refine ⟨hdone, hafter.exact (unaffected_of_entries kept_beside_other ?_)⟩
  decide

/-- An item that was written under another spelling of its index is quoted as it was before. -/
theorem set_item_spelled :
    ((pair "${x.1}").get .root "e" .default).2 = some (.ok (some (.str "b"))) ∧
      ((pairQuoted "${x.1}").set .root "x.01" (.str "c")).2 = .ok () ∧
      (((pairQuoted "${x.1}").set .root "x.01" (.str "c")).1.get .root "e" .default).2 =
        some (.ok (some (.str "b"))) ∧
      ((((pairQuoted "${x.1}").set .root "x.01" (.str "c")).1.renewed ()).get .root "e"
        .default).2 = some (.ok (some (.str "c"))) := by
  refine ⟨?_, ?_, ?_, ?_⟩ <;> cbv

section

variable (hp : options.Pure f) (ha : options.Answers) (hnew : ofValue document options host = .ok t₀)
  (hreads : t₀.Reads t) (names : Path.root.resolve text = .ok path)
  (done : t.set .root text value = (t', .ok ()))

include hp ha hnew hreads names done in
/-- After plain reads of a new tree without arrays and a write that creates a key for a segment that
names it exactly, what has read the slot of the key may still be kept; all else is read as on a new
tree. Any other write changes just the slot of its path. -/
theorem set_flat_readsAfter (flat : document.Flat) :
    (∀ front segment rest, path.segments = front ++ segment :: rest → rest ≠ [] →
      Opens (options.context.merge (Context.own document)) document front segment →
      t'.ReadsAfter (·.Related (Path.logical ⟨front ++ [segment]⟩)) path) ∧
    ((∀ front segment rest, path.segments = front ++ segment :: rest → rest ≠ [] →
      ¬ Opens (options.context.merge (Context.own document)) document front segment) →
      t'.ReadsAfter (·.Related path.logical) path) := by
  have hmet (slots : List String) : (fun slot : Path => Place.Meets (slots.map .slot) slot.segments) =
      (·.Related ⟨slots⟩) := funext fun _ => propext Place.meets_slots_iff
  constructor
  · intro front segment rest he hne hopens
    have h := readsAfter_changedPlaces hp ha hnew hreads names done fun _ _ =>
      (congrArg _ he).trans (changedPlaces_of_opens flat hopens hne)
    rwa [hmet] at h
  · intro hn
    have h := readsAfter_changedPlaces hp ha hnew hreads names done fun _ hw =>
      changedPlaces_of_not_opens hw flat hn
    rwa [hmet] at h

end

/-- A new tree for one language with a part, a plain text and a quotation. -/
def parts (quotation : String) : Tree Unit :=
  ofDocument (.obj [("a", .obj [("c", .str "x")]), ("d", .str "y"), (".e", .str quotation)])
    { Options.default with context := .ofList [("lang", "es")] } ()

/-- The parts after their quotation was read. -/
def partsQuoted (quotation : String) : Tree Unit :=
  ((parts quotation).get .root "e" .default).1

theorem kept_beside_text :
    ((partsQuoted "${d}").set .root "a:es.b" (.str "z")).1.world.cache.entries =
      [(⟨⟨[".e"]⟩, "lang=es"⟩, ⟨.str "y", 0, [⟨["d"]⟩, ⟨["$context"]⟩, ⟨["e"]⟩]⟩)] := by
  cbv

/-- A text beside a new variant is quoted as on a new tree. -/
theorem set_variant_beside_text :
    ((partsQuoted "${d}").set .root "a:es.b" (.str "z")).2 = .ok () ∧
      ((partsQuoted "${d}").set .root "a:es.b" (.str "z")).1.ReadsExactly (· = .empty) := by
  have hp : Options.Pure { (Options.default : Options Unit) with context := .ofList [("lang", "es")] }
      fun _ _ => .ok .null := ⟨rfl, nofun⟩
  have ha : Options.Answers
      { (Options.default : Options Unit) with context := .ofList [("lang", "es")] } := nofun
  have hget : ((parts "${d}").get .root "e" .default).2 = some (.ok (some (.str "y"))) := by cbv
  have hreads : (parts "${d}").Reads (partsQuoted "${d}") :=
    .single (.read rfl (gives_of_get (Prod.ext rfl hget)))
  have hnames : Path.root.resolve "a:es.b" = .ok ⟨["a:es", "b"]⟩ := by decide
  have hflat : (parts "${d}").document.Flat := by
    refine .obj fun e he => ?_
    simp only [List.mem_cons, List.not_mem_nil, or_false] at he
    rcases he with rfl | rfl | rfl
    · exact .obj fun e he => by rw [List.mem_singleton.1 he]; exact .str _
    · exact .str _
    · exact .str _
  have hopens : Opens ((parts "${d}").context.merge (Context.own (parts "${d}").document))
      (parts "${d}").document [] "a:es" := by
    constructor <;> cbv
  have hdone : ((partsQuoted "${d}").set .root "a:es.b" (.str "z")).2 = .ok () := by cbv
  have hafter := (set_flat_readsAfter hp ha (ofValue_eq_ok.2 ⟨rfl, rfl⟩) hreads hnames
    (Prod.ext rfl hdone) hflat).1 [] "a:es" ["b"] rfl (List.cons_ne_nil _ _) hopens
  refine ⟨hdone, hafter.exact (unaffected_of_entries kept_beside_text ?_)⟩
  decide

/-- A part that a new variant hides is quoted as it was before. -/
theorem set_variant_over_part :
    ((parts "${a.c ?? 0}").get .root "e" .default).2 = some (.ok (some (.str "x"))) ∧
      ((partsQuoted "${a.c ?? 0}").set .root "a:es.b" (.str "z")).2 = .ok () ∧
      (((partsQuoted "${a.c ?? 0}").set .root "a:es.b" (.str "z")).1.get .root "e" .default).2 =
        some (.ok (some (.str "x"))) ∧
      ((((partsQuoted "${a.c ?? 0}").set .root "a:es.b" (.str "z")).1.renewed ()).get .root "e"
        .default).2 = some (.ok (some (.num (.int 0)))) := by
  refine ⟨?_, ?_, ?_, ?_⟩ <;> cbv

end LiveDoc.Tree
