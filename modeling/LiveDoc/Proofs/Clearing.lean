import LiveDoc.Proofs.Getting
import LiveDoc.Proofs.ReadBack

/-! # Cleared mappings

A clear puts an empty mapping at its path as a write does: it goes on by the keys that its segments select,
but spells out the last one. So a variant that wins the last slot keeps what it has, and reads go on to
see it.
-/

namespace LiveDoc

variable {σ : Type}

/-- A read of an empty mapping is done at once. -/
theorem Request.read_of_empty {request : Request σ} {path place : Path} {context : Context}
    {w : World σ} (h : locate w.document path (w.context.merge request.context) =
      .static place (.obj []) context) (fresh : Bool) :
    request.read path fresh w = .done (.ok (some (.obj []))) w := by
  have hfound : Found.ofLocated (.static place (.obj []) context) =
      .mapping [] (Found.levelsOf (.obj [])) := rfl
  obtain ⟨levels, hlevels⟩ : ∃ levels, Found.levelsOf (.obj []) = levels + 1 :=
    Nat.exists_eq_succ_of_ne_zero (by decide)
  have hplan : Plan.descend fresh (Found.mapping [] (Found.levelsOf (.obj []))).levels
      (.mapping [] (Found.levelsOf (.obj []))) = .done (.ok (some (.obj []))) := by
    rw [Found.levels, hlevels]
    rfl
  have hfind : request.follow (request.evaluate request.options.maxDepth) (Plan.resolve fresh path) [] w =
      request.follow (request.evaluate request.options.maxDepth) (.done (.ok (some (.obj []))))
        (Stack.record [] (walkReads path)) w := by
    rw [← hplan, ← hfound, ← h]
    rfl
  rw [read, hfind]
  rfl

namespace Tree

variable {t t' : Tree σ} {base path place : Path} {text : String} {context : Context} {left : Value}

/-- After a write there is no evaluation that a read could join. -/
theorem Orderly.lookup_readKey_written (h : t.Orderly) (left : Value) (written path : Path)
    (asked : ReadOptions) : (t.written left written).inflight.lookup
      ((t.written left written).readKey path asked) = none := by
  refine Assoc.lookup_eq_none_iff.2 fun hkey => ?_
  obtain ⟨e, he, hk⟩ := List.mem_map.1 hkey
  have hle : e.1.generation ≤ t.generation := h.generation_le e he
  rw [hk] at hle
  exact Nat.not_succ_le_self _ hle

theorem keysAt_of_empty (h : locate t.document path t.context = .static place (.obj []) context) :
    t.keysAt path = [] := by
  have hl : locate t.world.document path t.world.context = .static place (.obj []) context := h
  rw [keysAt, hl]
  rfl

/-- What a clear makes of a tree. -/
theorem clearAt_eq_ok (h : t.clearAt path = (t', .ok ())) : ∃ left, t' = t.written left path ∧
    (path.segments = [] ∧ left = .obj [] ∨
      writeFrom (.obj []) .root (t.context.merge (Context.own t.document)) t.document path.segments =
        (left, .ok ())) := by
  unfold clearAt at h
  split at h
  · next hroot => exact ⟨_, (Prod.mk.inj h).1.symm, .inl ⟨List.isEmpty_iff.1 hroot, rfl⟩⟩
  · obtain ⟨left, hw, rfl⟩ := setAt_eq_ok h
    exact ⟨left, rfl, .inr hw⟩

/-- In every state that a tree comes to, after a clear that went through: if a reading of the path comes to
the cleared place, the path has no keys, and every read of it without a context of its own gives the
empty mapping. It comes there exactly if it comes back by what the clear has entered to the slot that it
has filled; else it finds what another path of the same slots led to before. So it comes there in every
document without arrays if no other key competes for the slot. -/
theorem clear_seen_iff {document : Value} {options : Options σ} {host : σ} (hd : document.Distinct)
    {acts : List (Act σ)} (ha : ∀ a ∈ acts, a.Writes List.Nodup)
    (reached : t = ((Traffic.idle (ofDocument document options host)).run acts).tree)
    (names : base.resolve text = .ok path) (done : t.clear base text = (t', .ok ())) :
    let reading := t.context.merge (Context.own t.document)
    let Seen := ∃ c, locate t'.document path t'.context =
      .static ⟨writtenPlace reading t.document path.segments⟩ (.obj []) c
    (Seen → t'.keysAt path = [] ∧ ∀ asked : ReadOptions, asked.context = none →
      (t'.get base text asked).2 = some (.ok (some (.obj [])))) ∧
    (contextKey ∉ path.segments →
      (Seen ↔ ReadsBack (.obj []) reading reading t.document path.segments) ∧
      (¬ Seen → ∃ other : Path, other.logical = path.logical ∧
        locate t'.document path t'.context = locate t.document other t.context) ∧
      (t.document.Flat → (∀ last, path.last? = some last →
        FillsAlone last (receiver reading t.document path.segments)) → Seen)) := by
  intro reading Seen
  have hdistinct : t.document.Distinct := reached ▸ Traffic.distinct_run options host hd ha
  have horderly : t.Orderly := reached ▸
    ((Traffic.Orderly.idle (.ofDocument document options host) rfl).run acts).tree
  rw [Tree.clear, names] at done
  obtain ⟨left, rfl, hleft⟩ := clearAt_eq_ok done
  refine ⟨?_, fun hc => ?_⟩
  · rintro ⟨c, hseen⟩
    refine ⟨keysAt_of_empty hseen, fun asked hasked => ?_⟩
    have hlocate : locate (t.written left path).world.document path
        ((t.written left path).world.context.merge ((t.written left path).request asked).context) =
          .static ⟨writtenPlace reading t.document path.segments⟩ (.obj []) c := by
      rw [request, hasked]
      exact hseen
    obtain ⟨_, hget, -⟩ := get_of_unjoined
      (fun _ => horderly.lookup_readKey_written left path path asked) names
      (Request.read_of_empty hlocate asked.fresh)
    rw [hget]
  · have hiff : Seen ↔ ReadsBack (.obj []) reading reading t.document path.segments := by
      rcases hleft with ⟨hroot, rfl⟩ | hw
      · have hpath : path = ⟨[]⟩ := congrArg Path.mk hroot
        subst hpath
        exact iff_of_true ⟨_, rfl⟩ trivial
      · exact locate_obj_iff hw hc
    refine ⟨hiff, fun hn => ?_, fun hf halone => ?_⟩
    · rw [hiff] at hn
      rcases hleft with ⟨hroot, rfl⟩ | hw
      · exact absurd (hroot ▸ trivial) hn
      · exact exists_locate_of_not_readsBack hw hdistinct hc hn
    · exact hiff.2 (readsBack_of_flat hf hdistinct halone)

/-- A new tree with a menu in Spanish alone. -/
def spanishMenu (context : Context) : Tree Unit :=
  ofDocument (.obj [("m:es", .obj [("t", .str "a")])]) { Options.default with context := context } ()

/-- The menu with the Spanish one once another was written beside it. -/
def bothMenus : Tree Unit :=
  ((Traffic.idle (spanishMenu .empty)).run [.set .root "m.t" (.str "b")]).tree

/-- The menu that was written is cleared, and seen to be empty. -/
theorem clear_seen_written : ∃ t', bothMenus.clear .root "m" = (t', .ok ()) ∧
    t'.keysAt ⟨["m"]⟩ = [] ∧ (t'.get .root "m" .default).2 = some (.ok (some (.obj []))) := by
  have hd : (Value.obj [("m:es", .obj [("t", .str "a")])]).Distinct := by simp [Value.Distinct]
  have ha : ∀ a ∈ [Act.set (σ := Unit) .root "m.t" (.str "b")], a.Writes List.Nodup := by
    simp [Act.Writes]
  have hnames : Path.root.resolve "m" = .ok ⟨["m"]⟩ := by decide
  have hdocument : bothMenus.document =
      .obj [("m:es", .obj [("t", .str "a")]), ("m", .obj [("t", .str "b")])] := by cbv
  have hback : ReadsBack (.obj []) (bothMenus.context.merge (Context.own bothMenus.document))
      (bothMenus.context.merge (Context.own bothMenus.document)) bothMenus.document ["m"] := by
    rw [hdocument]
    rintro members ⟨⟩
    cbv
  have hdone : (bothMenus.clear .root "m").2 = .ok () := by cbv
  rcases hclear : bothMenus.clear .root "m" with ⟨t', outcome⟩
  rw [hclear] at hdone
  obtain rfl : outcome = .ok () := hdone
  have hseen := clear_seen_iff hd ha rfl hnames hclear
  obtain ⟨hkeys, hget⟩ := hseen.1 ((hseen.2 (by decide)).1.2 hback)
  exact ⟨t', rfl, hkeys, hget .default rfl⟩

/-- A reading in Spanish goes on to see the menu that was not cleared. -/
theorem clear_passes_by_variant :
    ((spanishMenu (.ofList [("lang", "es")])).clear .root "m").2 = .ok () ∧
      ((spanishMenu (.ofList [("lang", "es")])).clear .root "m").1.document =
        .obj [("m:es", .obj [("t", .str "a")]), ("m", .obj [])] ∧
      ((spanishMenu (.ofList [("lang", "es")])).clear .root "m").1.keysAt ⟨["m"]⟩ = ["t"] ∧
      (((spanishMenu (.ofList [("lang", "es")])).clear .root "m").1.get .root "m" .default).2 =
        some (.ok (some (.obj [("t", .str "a")]))) := by
  refine ⟨by cbv, by cbv, by cbv, by cbv⟩

end Tree

end LiveDoc
