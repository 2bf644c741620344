import LiveDoc.Proofs.CallContexts
import LiveDoc.Proofs.Transparency

/-! # Renewed trees

A tree reads as a new one over the document and the global context of the moment exactly if all that it
keeps for the expressions found there is what a new tree gives.
-/

namespace LiveDoc.Tree

variable {σ : Type}

/-- A new tree over the document and the global context of the moment. -/
def renewed (t : Tree σ) (host : σ) : Tree σ :=
  ofDocument t.document { t.options with context := t.context } host

/-- A new tree gives a value if its expressions may nest deep enough. -/
def NewlyGives (t : Tree σ) (base : Path) (text : String) (asked : ReadOptions) (v : Option Value) :
    Prop :=
  Yields t.document { t.options with context := t.context } t.world.host base text asked v

/-- A new tree can be built over the document, and reads end in both. -/
structure Renewable (C : Context → Prop) (t : Tree σ) : Prop where
  renews : ∀ host,
    ofValue t.document { t.options with context := t.context } host = .ok (t.renewed host)
  ends : ∀ base text asked, C asked.own → ∃ r t', t.Gives base text asked r t'
  ends_new : ∀ host base text asked, C asked.own →
    ∃ r t', (t.renewed host).Gives base text asked r t'

/-- Reads under some contexts of the call give what they give on a new tree, unless evaluations nest
too deep in one of the two. -/
structure ReadsAsNew (C : Context → Prop) (t : Tree σ) : Prop extends t.Renewable C where
  agree : ∀ base text asked r t' host r' t'', C asked.own → t.Gives base text asked r t' →
    (t.renewed host).Gives base text asked r' t'' → r = r' ∨ r.IsTooDeep ∨ r'.IsTooDeep
  sound : ∀ base text asked v t', C asked.own → t.Gives base text asked (.ok v) t' →
    t.NewlyGives base text asked v

/-- Reads under some contexts of the call give what they give on a new tree, unless evaluations nest
too deep there. -/
structure ReadsExactly (C : Context → Prop) (t : Tree σ) : Prop extends t.Renewable C where
  exact : ∀ base text asked r t' host r' t'', C asked.own → t.Gives base text asked r t' →
    (t.renewed host).Gives base text asked r' t'' → ¬ r'.IsTooDeep → r = r'

/-- What is kept and fresh for an expression that is found under one of some contexts is what a new
tree gives for it, as far as a condition holds of the expression and of what is kept. -/
def KeepsRight (C : Context → Prop) (P : Site → CacheEntry → Prop) (t : Tree σ) : Prop :=
  ∀ c path site entry, C c → locate t.document path (t.context.merge c) = .expression site →
    t.world.cache.lookup (Request.keyOf site) = some entry → P site entry →
    t.NewlyGives site.path "" (.under c) (some entry.value)

variable {t : Tree σ} {C : Context → Prop} {f : String → List Value → Except String Value}

theorem newSetting_renewed (t : Tree σ) (host : σ) (c : Context) :
    newSetting t.document { t.options with context := t.context } host f c = t.setting f c :=
  setting_congr rfl rfl rfl c

/-- The place of an expression leads straight to it. -/
theorem setting_find {c : Context} {site : Site} (hs : (t.setting f c).Locates site) :
    (t.setting f c).find site.path = .expression { site with rest := [] } := by
  rw [← newSetting_renewed t t.world.host] at hs ⊢
  exact newSetting_find hs

section

variable (hp : t.options.Pure f) (ha : t.options.Answers)

include hp ha in
theorem newlyGives_site_iff {c : Context} {site : Site} (hs : (t.setting f c).Locates site)
    {v : Value} : t.NewlyGives site.path "" (.under c) (some v) ↔
      ∃ n a, (t.setting f c).account n site = some a ∧ a.result = v := by
  have hp' : Options.Pure { t.options with context := t.context } f := ⟨hp.onError, hp.computes⟩
  rw [← newSetting_renewed t t.world.host] at hs ⊢
  exact yields_site_iff hp' ha hs

include ha in
theorem renewable (hi : t.inflight = []) (hm : t.document.isObject = true) : t.Renewable C where
  renews _ := ofValue_eq_ok.2 ⟨hm, rfl⟩
  ends base text asked _ := exists_gives ha hi base text asked
  ends_new host base text asked _ := exists_gives (t := t.renewed host) ha rfl base text asked

include hp in
theorem agree_renewed {traced : Prop} (hi : t.inflight = []) {base : Path} {text : String}
    {asked : ReadOptions} (hf : t.world.cache.Faithful (t.setting f asked.own) traced)
    {r r' : ReadResult} {t' t'' : Tree σ} {host : σ} (hg : t.Gives base text asked r t')
    (hg' : (t.renewed host).Gives base text asked r' t'') :
    r'.IsTooDeep ∨ (¬ traced ∧ r.IsTooDeep) ∨ r' = r := by
  have hp' : (t.renewed host).options.Pure f := ⟨hp.onError, hp.computes⟩
  have hnone (key : CacheKey) : ¬ (t.renewed host).world.cache.Known key := fun hk => by cases hk
  exact Gives.agree hp' hp rfl hi (setting_congr rfl rfl rfl _) rfl (Cache.faithful_empty _ _) hf
    (fun _ key hk => absurd hk (hnone key)) hg' hg

include hp ha in
/-- A tree whose kept results are right, with all that they needed, reads exactly as a new one. -/
theorem readsExactly_of_faithful (hi : t.inflight = []) (hm : t.document.isObject = true)
    (hf : ∀ c, C c → t.world.cache.Faithful (t.setting f c) True) : t.ReadsExactly C where
  toRenewable := renewable ha hi hm
  exact base text asked r t' host r' t'' hc hg hg' hdeep := by
    rcases agree_renewed hp hi (hf _ hc) hg hg' with h | ⟨h, -⟩ | h
    · exact absurd h hdeep
    · exact absurd trivial h
    · exact h.symm

include hp ha in
/-- A tree whose kept results are right reads as a new one. -/
theorem readsAsNew_of_faithful (hi : t.inflight = []) (hm : t.document.isObject = true)
    (hf : ∀ c, C c → t.world.cache.Faithful (t.setting f c) False) : t.ReadsAsNew C where
  toRenewable := renewable ha hi hm
  agree base text asked r t' host r' t'' hc hg hg' := by
    rcases agree_renewed hp hi (hf _ hc) hg hg' with h | ⟨-, h⟩ | h
    · exact .inr (.inr h)
    · exact .inr (.inl h)
    · exact .inl h.symm
  sound base text asked v t' hc hg := by
    obtain ⟨n, a, hacc, hv, -⟩ := (hg.answered hp hi (hf _ hc)).ok v rfl
    have hp' : Options.Pure { t.options with context := t.context } f := ⟨hp.onError, hp.computes⟩
    rw [← newSetting_renewed t t.world.host] at hacc
    exact (yields_iff hp' ha).2 ⟨n, a, hacc, hv⟩

include hp in
/-- A kept result shows itself in the read that comes straight to its expression. -/
theorem ReadsAsNew.keepsRight (h : t.ReadsAsNew C) (hi : t.inflight = []) :
    t.KeepsRight C fun _ _ => True := by
  intro c path site entry hc hl hentry _
  obtain ⟨r, t', hg⟩ := h.ends site.path "" (.under c) hc
  have hs : (t.setting f c).Locates site := Request.setting_locates.2 ⟨path, hl⟩
  have hfind : (t.setting f (ReadOptions.under c).own).find site.path =
      .expression { site with rest := [] } := setting_find hs
  obtain rfl := hg.of_kept hp.onError hi (resolve_empty _) rfl hfind hentry
  exact h.sound site.path "" (.under c) (some entry.value) t' hc hg

include hp ha in
/-- A tree reads as a new one exactly if all that it keeps is what a new tree gives. -/
theorem readsAsNew_iff (hi : t.inflight = []) (hm : t.document.isObject = true)
    (ht : t.world.cache.Timely) : t.ReadsAsNew C ↔ t.KeepsRight C fun _ _ => True := by
  refine ⟨fun h => h.keepsRight hp hi, fun h => ?_⟩
  refine readsAsNew_of_faithful hp ha hi hm fun c hc => ⟨ht, ?_⟩
  intro key entry hl site hs hk
  subst hk
  obtain ⟨path, hlocate⟩ := Request.setting_locates.1 hs
  obtain ⟨n, a, hacc, hv⟩ :=
    (newlyGives_site_iff hp ha hs).1 (h c path site entry hc hlocate hl trivial)
  exact ⟨n, a, hacc, hv, False.elim⟩

end

end LiveDoc.Tree
