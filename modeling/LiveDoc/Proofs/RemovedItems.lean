import LiveDoc.Proofs.ChangedPaths
import LiveDoc.Proofs.Outliving

/-! # Removed items

The removal of an item moves all later items of its array, but what is kept counts as stale only if it
has read the removed item or something around it.
-/

namespace LiveDoc.Tree

variable {σ : Type} {t₀ t t' : Tree σ} {f : String → List Value → Except String Value}

/-- After plain reads of a new tree and the removal of an item, what has read a later item may still
be kept, however the index was spelled; all else is read as on a new tree. -/
theorem delete_item_readsAfter {document : Value} {options : Options σ} {host : σ} {base : Path}
    {text segment : String} {front : List String} {items : List Value} {i : Nat}
    (hp : options.Pure f) (ha : options.Answers) (hnew : ofValue document options host = .ok t₀)
    (hreads : t₀.Reads t) (names : base.resolve text = .ok ⟨front ++ [segment]⟩)
    (array : document.descend? front = some (.arr items))
    (index : Numeral.index? segment = some i) (done : t.delete base text = (t', .ok true)) :
    t'.ReadsAfter (Place.Meets (document.places front ++ [.itemsFrom i]) ·.segments)
      ⟨front ++ [segment]⟩ := by
  have hgrown := grown_of_reads hp hnew hreads
  obtain ⟨hm, rfl⟩ := ofValue_eq_ok.1 hnew
  have hdoc : t.document = document := hgrown.document
  have hworld : t.world.document = document := hdoc
  have hpath : (front ++ [segment]).isEmpty = false := by simp
  simp only [delete, names, deleteAt, remove, hpath, hworld, Bool.false_eq_true, if_false] at done
  cases hr : removeFrom? document (front ++ [segment]) with
  | none => simp [hr] at done
  | some left =>
    simp only [hr, Prod.mk.injEq, and_true] at done
    subst done
    have hc := removeFrom?_changed_items hr array index
    exact hgrown.readsAfter_changed hp ha (hdoc ▸ hm) (by rwa [hdoc]) _

/-- A new tree with a row of items and a quotation. -/
def row (quotation : String) : Tree Unit :=
  ofDocument (.obj [("x", .arr [.str "a", .str "b", .str "c"]), (".e", .str quotation)]) .default ()

/-- The row after its quotation was read. -/
def quoted (quotation : String) : Tree Unit :=
  ((row quotation).get .root "e" .default).1

theorem kept_behind_first :
    ((quoted "${x.0}").delete .root "x.1").1.world.cache.entries =
      [(⟨⟨[".e"]⟩, ""⟩, ⟨.str "a", 0,
        [⟨["x", "0"]⟩, ⟨["x", "$context"]⟩, ⟨["$context"]⟩, ⟨["e"]⟩]⟩)] := by
  cbv

/-- An item before the removed one is quoted as on a new tree. -/
theorem delete_item_behind_first :
    ((quoted "${x.0}").delete .root "x.1").2 = .ok true ∧
      ((quoted "${x.0}").delete .root "x.1").1.ReadsExactly (· = .empty) := by
  have hp : (Options.default : Options Unit).Pure fun _ _ => .ok .null := ⟨rfl, nofun⟩
  have ha : (Options.default : Options Unit).Answers := nofun
  have hget : ((row "${x.0}").get .root "e" .default).2 = some (.ok (some (.str "a"))) := by cbv
  have hreads : (row "${x.0}").Reads (quoted "${x.0}") :=
    .single (.read rfl (gives_of_get (Prod.ext rfl hget)))
  have hnames : Path.root.resolve "x.1" = .ok ⟨["x"] ++ ["1"]⟩ := by decide
  have hindex : Numeral.index? "1" = some 1 := by decide
  have hdone : ((quoted "${x.0}").delete .root "x.1").2 = .ok true := by cbv
  have hafter := delete_item_readsAfter hp ha (ofValue_eq_ok.2 ⟨rfl, rfl⟩) hreads hnames rfl
    hindex (Prod.ext rfl hdone)
  refine ⟨hdone, hafter.exact (unaffected_of_entries kept_behind_first ?_)⟩
  decide

/-- An item behind the removed one is quoted as if it had stayed in its place. -/
theorem delete_item_before_last :
    ((row "${x.2}").get .root "e" .default).2 = some (.ok (some (.str "c"))) ∧
      ((quoted "${x.2}").delete .root "x.1").2 = .ok true ∧
      (((quoted "${x.2}").delete .root "x.1").1.get .root "e" .default).2 =
        some (.ok (some (.str "c"))) ∧
      ((((quoted "${x.2}").delete .root "x.1").1.renewed ()).get .root "e" .default).2 =
        some (.ok (some .null)) := by
  refine ⟨?_, ?_, ?_, ?_⟩ <;> cbv

end LiveDoc.Tree
