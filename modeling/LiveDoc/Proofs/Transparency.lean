import LiveDoc.Proofs.ChangedPaths
import LiveDoc.Proofs.Reading
import LiveDoc.Proofs.Settled
import Mathlib.Logic.Relation

/-! # Reads as of a new tree

Whatever was read, written and dropped before, a read gives what it gives on a new tree over the
document and the global context of that moment.
-/

namespace LiveDoc

/-- No segment before the last has a marker or tags. -/
def Path.Bare (p : Path) : Prop :=
  ∀ segment ∈ p.segments.dropLast, isExact segment = false

namespace Tree

variable {σ : Type}

/-- The global context and those that the document declares can be told by their fingerprints. -/
structure Clean (t : Tree σ) : Prop where
  contexts : t.document.CleanContexts
  context : t.context.Clean

/-- A read under the global context alone, a write or clearing that succeeds, a removal, or a loss of
all that is kept. -/
inductive Moves : Tree σ → Tree σ → Prop where
  | read {t t' : Tree σ} {base : Path} {text : String} {options : ReadOptions} {r : ReadResult}
    (plain : options.own = .empty) (gives : t.Gives base text options r t') : Moves t t'
  | set {t t' : Tree σ} {text : String} {path : Path} {value : Value} (flat : value.Flat)
    (names : Path.root.resolve text = .ok path) (bare : path.Bare)
    (done : t.set .root text value = (t', .ok ())) : Moves t t'
  | delete (t : Tree σ) (text : String) : Moves t (t.delete .root text).1
  | clear {t t' : Tree σ} {text : String} {path : Path}
    (names : Path.root.resolve text = .ok path) (bare : path.Bare)
    (done : t.clear .root text = (t', .ok ())) : Moves t t'
  | clearCache (t : Tree σ) : Moves t t.clearCache
  | setContext (t : Tree σ) (context : Context) : Moves t (t.setContext context)

/-- The second tree is reached from the first through clean trees. -/
def Reaches : Tree σ → Tree σ → Prop :=
  Relation.ReflTransGen fun t t' => t.Moves t' ∧ t'.Clean

/-- Nothing is under way, and all that is kept is right for the document. -/
structure Settled (t : Tree σ) (f : String → List Value → Except String Value) : Prop where
  idle : t.inflight = []
  mapping : t.document.isObject = true
  flat : t.document.Flat
  clean : t.Clean
  cache : t.world.cache.Settled (t.setting f .empty) t.document

variable {t t' : Tree σ} {f : String → List Value → Except String Value}

theorem holds_of_locates (h : t.Clean) {site : Site} (hs : (t.setting f .empty).Locates site) :
    t.document.Holds site := by
  obtain ⟨path, hl⟩ := Request.setting_locates.1 hs
  exact Value.holds_of_locate h.contexts (h.context.merge Context.clean_empty) hl

theorem Settled.faithful (h : t.Settled f) :
    t.world.cache.Faithful (t.setting f .empty) True :=
  h.cache.faithful fun _ => holds_of_locates h.clean

/-! ## What a move preserves -/

theorem Settled.read (hp : t.options.Pure f) (h : t.Settled f) {base : Path} {text : String}
    {asked : ReadOptions} {r : ReadResult} (plain : asked.own = .empty)
    (hg : t.Gives base text asked r t') :
    t'.Settled f ∧ t'.options = t.options ∧ t'.document = t.document := by
  have ha := hg.answered hp h.idle (plain ▸ h.faithful)
  rw [plain] at ha
  refine ⟨⟨ha.idle, ha.document ▸ h.mapping, ha.document ▸ h.flat,
    ⟨ha.document ▸ h.clean.contexts, ha.context ▸ h.clean.context⟩, ?_⟩, ha.options, ha.document⟩
  rw [setting_congr (congrArg Options.registry ha.options) ha.document ha.context, ha.document]
  exact h.cache.grows (fun _ => holds_of_locates h.clean) ha.grows

theorem Settled.changed (h : t.Settled f) {document : Value} {write : Path}
    (he : Changed (write.logical.segments.map .slot) t.document document) (hflat : document.Flat)
    (hc : (t.written document write).Clean) : (t.written document write).Settled f where
  idle := h.idle
  mapping := he.isObject_eq.trans h.mapping
  flat := hflat
  clean := hc
  cache := by
    have hmet {slot : Path} (hr : ¬ slot.Related write.logical) :
        ¬ Place.Meets (write.logical.segments.map .slot) slot.segments :=
      fun hm => hr (Place.meets_slots_iff.1 hm)
    exact h.cache.invalidate (fun _ => holds_of_locates h.clean) rfl
      (fun _ hr => congrArg Found.ofLocated (he.locate_eq (fun slot hs => hmet (hr slot hs)) _))
      fun _ hr => he.descend?_eq (hmet hr)

/-- Emptying the document leaves nothing that was kept. -/
theorem Settled.emptied (h : t.Settled f) {write : Path} (hw : write.segments = [])
    (hc : (t.written (.obj []) write).Clean) : (t.written (.obj []) write).Settled f where
  idle := h.idle
  mapping := rfl
  flat := .obj fun _ he => absurd he List.not_mem_nil
  clean := hc
  cache := by
    have hrel (slot : Path) : slot.Related write.logical := by
      refine .inr ?_
      rw [Path.logical, hw]
      exact List.nil_prefix
    exact h.cache.invalidate (fun _ => holds_of_locates h.clean) rfl
      (fun path hr => absurd (hrel _) (hr path.logical (List.mem_append_right _ List.mem_cons_self)))
      fun path hr => absurd (hrel _) hr

theorem Settled.setAt (h : t.Settled f) {path : Path} {value : Value} (hv : value.Flat)
    (hbare : path.Bare) (hspelled : ∀ s ∈ path.segments, Spelled s)
    (hd : t.setAt path value = (t', .ok ())) (hc : t'.Clean) :
    t'.Settled f ∧ t'.options = t.options := by
  unfold Tree.setAt write at hd
  cases hr : path.last?.bind reservedName? with
  | some name => simp [hr] at hd
  | none =>
    simp only [hr] at hd
    rcases hw : writeFrom value .root (t.world.context.merge (Context.own t.world.document))
      t.world.document path.segments with ⟨document, outcome⟩
    have hflat := flat_writeFrom hv h.flat .root
      (t.world.context.merge (Context.own t.world.document)) path.segments
    rw [show t.document = t.world.document from rfl, hw] at hflat
    rw [hw] at hd
    cases outcome with
    | error e => simp at hd
    | ok u =>
      simp only [Prod.mk.injEq, and_true] at hd
      subst hd
      exact ⟨h.changed (writeFrom_changed_slot hw h.flat hbare fun s hs =>
        hspelled s (List.mem_of_getLast? hs)) hflat hc, rfl⟩

theorem Settled.deleteAt (h : t.Settled f) {path : Path}
    (hspelled : ∀ s ∈ path.segments, Spelled s) (hc : (t.deleteAt path).1.Clean) :
    (t.deleteAt path).1.Settled f ∧ (t.deleteAt path).1.options = t.options := by
  unfold Tree.deleteAt at hc ⊢
  cases hr : remove t.world.document path with
  | error e => exact ⟨h, rfl⟩
  | ok left =>
    cases left with
    | none => exact ⟨h, rfl⟩
    | some document =>
      simp only [hr] at hc ⊢
      simp only [remove] at hr
      split at hr
      · cases hr
      · have hr := Except.ok.inj hr
        exact ⟨h.changed (removeFrom?_changed_slot hr h.flat fun s hs =>
          hspelled s (List.mem_of_getLast? hs)) (flat_removeFrom? h.flat hr) hc, rfl⟩

/-- Every move leaves a settled tree settled. -/
theorem Settled.moves (hp : t.options.Pure f) (h : t.Settled f) (hm : t.Moves t') (hc : t'.Clean) :
    t'.Settled f ∧ t'.options = t.options := by
  cases hm with
  | read plain gives =>
    obtain ⟨hs, ho, -⟩ := h.read hp plain gives
    exact ⟨hs, ho⟩
  | set flat names bare done =>
    simp only [Tree.set, names] at done
    exact h.setAt flat bare (Path.spelled_of_resolve names) done hc
  | delete text =>
    unfold Tree.delete at hc ⊢
    cases hr : Path.root.resolve text with
    | error e => exact ⟨h, rfl⟩
    | ok path =>
      simp only [hr] at hc ⊢
      exact h.deleteAt (Path.spelled_of_resolve hr) hc
  | @clear _ text path names bare done =>
    simp only [Tree.clear, names, clearAt] at done
    split at done
    · next he =>
      simp only [Prod.mk.injEq, and_true] at done
      subst done
      exact ⟨h.emptied (List.isEmpty_iff.1 he) hc, rfl⟩
    · exact h.setAt (.obj fun _ he => absurd he List.not_mem_nil) bare
        (Path.spelled_of_resolve names) done hc
  | clearCache =>
    exact ⟨⟨h.idle, h.mapping, h.flat, hc, .of_unknown h.cache.timely.clear (Cache.lookup_clear _)⟩, rfl⟩
  | setContext =>
    exact ⟨⟨h.idle, h.mapping, h.flat, hc, .of_unknown h.cache.timely.clear (Cache.lookup_clear _)⟩, rfl⟩

theorem Settled.reaches (hp : t.options.Pure f) (h : t.Settled f) (hr : t.Reaches t') :
    t'.Settled f ∧ t'.options = t.options := by
  induction hr with
  | refl => exact ⟨h, rfl⟩
  | tail _ hm ih =>
    obtain ⟨hs, ho⟩ := ih
    obtain ⟨hs', ho'⟩ := hs.moves (ho ▸ hp) hm.1 hm.2
    exact ⟨hs', ho'.trans ho⟩

/-! ## New trees -/

theorem settled_ofDocument {document : Value} {options : Options σ} {host : σ}
    (hm : document.isObject = true) (hf : document.Flat)
    (hc : (ofDocument document options host).Clean) : (ofDocument document options host).Settled f :=
  ⟨rfl, hm, hf, hc, .of_unknown Cache.timely_empty fun _ => rfl⟩

theorem ofValue_eq_ok {document : Value} {options : Options σ} {host : σ} :
    ofValue document options host = .ok t ↔
      document.isObject = true ∧ t = ofDocument document options host := by
  unfold ofValue checkDocument
  cases hm : document.isObject with
  | true => simp [bind, Except.bind, pure, Except.pure, eq_comm]
  | false => simp [bind, Except.bind]

/-- After any run a read ends, and it gives what it gives on a new tree over the document and the
global context of that moment, unless evaluations nest too deep in the new tree. -/
theorem get_eq_rebuilt {document : Value} {options : Options σ} {host : σ} {t₀ : Tree σ}
    (hp : options.Pure f) (ha : options.Answers) (hflat : document.Flat)
    (hnew : ofValue document options host = .ok t₀) (hclean : t₀.Clean) (hrun : t₀.Reaches t)
    (base : Path) (text : String) {asked : ReadOptions} (plain : asked.own = .empty) (host' : σ) :
    ∃ rebuilt, ofValue t.document { options with context := t.context } host' = .ok rebuilt ∧
      (∃ r t', t.Gives base text asked r t') ∧ (∃ r t', rebuilt.Gives base text asked r t') ∧
      ∀ r t' r' t'', t.Gives base text asked r t' → rebuilt.Gives base text asked r' t'' →
        ¬ r'.IsTooDeep → r = r' := by
  obtain ⟨hm, rfl⟩ := ofValue_eq_ok.1 hnew
  obtain ⟨hs, ho⟩ := (settled_ofDocument hm hflat hclean).reaches (t := ofDocument document options host)
    hp hrun
  have ho : t.options = options := ho
  subst ho
  let rebuilt : Tree σ := ofDocument t.document { t.options with context := t.context } host'
  have hs' : rebuilt.Settled f :=
    settled_ofDocument hs.mapping hs.flat ⟨hs.clean.contexts, hs.clean.context⟩
  refine ⟨rebuilt, ofValue_eq_ok.2 ⟨hs.mapping, rfl⟩, exists_gives ha hs.idle base text asked,
    exists_gives (t := rebuilt) ha rfl base text asked, fun r t' r' t'' hg hg' hdeep => ?_⟩
  have hp' : rebuilt.options.Pure f := ⟨hp.onError, hp.computes⟩
  have hS : rebuilt.setting f asked.own = t.setting f asked.own := setting_congr rfl rfl rfl _
  have hf' : rebuilt.world.cache.Faithful (rebuilt.setting f asked.own) True := by
    rw [plain]
    exact hs'.faithful
  have hf : t.world.cache.Faithful (t.setting f asked.own) True := by
    rw [plain]
    exact hs.faithful
  have hnone (key : CacheKey) : ¬ rebuilt.world.cache.Known key := fun h => by cases h
  rcases Gives.agree hp' hp hs'.idle hs.idle hS rfl hf' hf (fun _ key hk => absurd hk (hnone key)) hg'
    hg with h | ⟨h, -⟩ | h
  · exact absurd h hdeep
  · exact absurd trivial h
  · exact h.symm

/-- A kept greeting is given anew once the title that it quotes is written. -/
theorem get_greeting_after_set :
    let title (s : String) : Value := .obj [("title", .str s), (".greeting", .str "At ${title}")]
    let t₀ : Tree Unit := ofDocument (title "home") .default ()
    ∃ r t₁ t, t₀.Gives .root "greeting" .default r t₁ ∧
      t₁.set .root "title" (.str "sea") = (t, .ok ()) ∧ t.document = title "sea" ∧
      ∃ rebuilt, ofValue t.document { Options.default with context := t.context } () = .ok rebuilt ∧
        (∃ r t', t.Gives .root "greeting" .default r t') ∧
        (∃ r t', rebuilt.Gives .root "greeting" .default r t') ∧
        ∀ r t' r' t'', t.Gives .root "greeting" .default r t' →
          rebuilt.Gives .root "greeting" .default r' t'' → ¬ r'.IsTooDeep → r = r' := by
  intro title t₀
  have hflat (s : String) : (title s).Flat := by
    refine .obj fun e he => ?_
    rcases List.mem_pair.1 he with rfl | rfl <;> exact .str _
  have hcontexts (s : String) : (title s).CleanContexts := by
    refine Value.cleanContexts_obj Context.clean_empty fun e he => ?_
    rcases List.mem_pair.1 he with rfl | rfl <;> exact Value.cleanContexts_str _
  have hpure : (Options.default : Options Unit).Pure fun _ _ => .ok .null := ⟨rfl, nofun⟩
  have hanswers : (Options.default : Options Unit).Answers := nofun
  have hclean : t₀.Clean := ⟨hcontexts "home", Context.clean_empty⟩
  have hs₀ : t₀.Settled fun _ _ => .ok .null := settled_ofDocument rfl (hflat "home") hclean
  obtain ⟨r, t₁, hg⟩ := exists_gives hanswers hs₀.idle .root "greeting" .default
  obtain ⟨hs₁, ho, hd⟩ := hs₀.read hpure rfl hg
  have hd : t₁.world.document = title "home" := hd
  have hnames : Path.root.resolve "title" = .ok ⟨["title"]⟩ := by decide
  have hset : t₁.set .root "title" (.str "sea") = (t₁.written (title "sea") ⟨["title"]⟩, .ok ()) := by
    simp only [Tree.set, hnames, Tree.setAt, hd]
    rfl
  have hrun : t₀.Reaches (t₁.written (title "sea") ⟨["title"]⟩) :=
    .tail (.single ⟨.read rfl hg, hs₁.clean⟩)
      ⟨.set (.str "sea") hnames (fun _ h => absurd h List.not_mem_nil) hset,
        hcontexts "sea", hs₁.clean.context⟩
  exact ⟨r, t₁, _, hg, hset, rfl,
    get_eq_rebuilt hpure hanswers (hflat "home") rfl hclean hrun .root "greeting" rfl ()⟩

end Tree

end LiveDoc
