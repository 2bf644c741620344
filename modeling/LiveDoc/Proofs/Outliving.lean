import LiveDoc.Proofs.Changes
import LiveDoc.Proofs.Renewal

/-! # Reads after one change

After plain reads of a new tree and one change of its document, what is kept is right again if neither
the way to its expression nor anything read for it has met the change.
-/

namespace LiveDoc

/-- The way to an expression, or what was read for its kept result, meets a change. -/
def Affected (met : Path → Prop) (site : Site) (entry : CacheEntry) : Prop :=
  ∃ slot ∈ walkReads site.path ++ entry.reads, met slot

namespace Cache

variable {S S' : Setting} {c : Cache} {met : Path → Prop}

/-- What was kept since nothing was is accounted for. -/
theorem Grows.accounts (h : Cache.empty.Grows S True c) : c.Accounts S S.Locates := by
  intro key entry hl
  rcases h.added key entry hl with hnone | hnew
  · cases hnone
  · exact hnew

/-- A kept result that outlives a write and was not affected by the change has its account in the
changed document. -/
theorem Grows.account_of_not_affected (h : Cache.empty.Grows S True c) (hS : S.Coherent)
    (hS' : S'.Coherent)
    (hstraight : ∀ site, S.Locates site → S.find site.path = .expression { site with rest := [] })
    (hcall : S'.call = S.call)
    (hfind : ∀ path, (∀ slot ∈ walkReads path, ¬ met slot) → S'.find path = S.find path)
    {write : Path} {site : Site} {entry : CacheEntry}
    (hl : (c.invalidate write).lookup (Request.keyOf site) = some entry) (hs : S'.Locates site)
    (hn : ¬ Affected met site entry) : ∃ n a, S'.account n site = some a ∧
      a.result = entry.value ∧ (c.invalidate write).Backs True a entry.reads := by
  obtain ⟨site₀, n, a, hs₀, hk, ha, hv, -, hb⟩ :=
    accounts_invalidate (h.timely timely_empty) h.accounts (fun _ => id)
      (fun s s' hs hs' hk => hS s s' hs hs' (congrArg CacheKey.path hk)) hl
  have hpath : site₀.path = site.path := congrArg CacheKey.path hk
  have hway (slot : Path) (hslot : slot ∈ walkReads site₀.path) : ¬ met slot := fun hm =>
    hn ⟨slot, List.mem_append_left _ (hpath ▸ hslot), hm⟩
  have hreads (slot : Path) (hslot : slot ∈ a.reads) : ¬ met slot := fun hm =>
    hn ⟨slot, List.mem_append_right _ (((hb trivial).1 slot).2 hslot), hm⟩
  -- the same way leads to the expression in the changed document
  have hs₀' : S'.Locates { site₀ with rest := [] } :=
    ⟨site₀.path, by rw [hfind _ hway, hstraight site₀ hs₀]⟩
  have hsame : site.Same site₀ := by
    obtain ⟨h₁, h₂, h₃⟩ := hS' _ _ hs hs₀' hpath.symm
    exact ⟨h₁, h₂, h₃⟩
  refine ⟨n, a, ?_, hv, hb⟩
  rw [Setting.account_congr hsame]
  exact Setting.account_stable hcall hfind ha hreads

end Cache

namespace Tree

variable {σ : Type} {t₀ t : Tree σ} {f : String → List Value → Except String Value}

/-- Plain reads take the first tree to the second. -/
def Reads : Tree σ → Tree σ → Prop :=
  Relation.ReflTransGen (Serves (· = .empty))

/-- No kept result of an expression that is found was affected by a change. -/
def Unaffected (met : Path → Prop) (t : Tree σ) : Prop :=
  ∀ path site entry, locate t.document path t.context = .expression site →
    t.world.cache.lookup (Request.keyOf site) = some entry → ¬ Affected met site entry

theorem unaffected_of_entries {t : Tree σ} {met : Path → Prop}
    {entries : List (CacheKey × CacheEntry)} (he : t.world.cache.entries = entries)
    (h : ∀ e ∈ entries, ∀ slot ∈ walkReads e.1.path ++ e.2.reads, ¬ met slot) :
    t.Unaffected met := by
  rintro path site entry - hl ⟨slot, hslot, hm⟩
  have hl := (Cache.lookup_eq_some_iff.1 hl).1
  rw [he] at hl
  exact h _ (Assoc.mem_of_lookup hl) slot hslot hm

/-- How a tree reads after a write that changed what some slots hold. -/
structure ReadsAfter (met : Path → Prop) (write : Path) (t : Tree σ) : Prop where
  /-- Nothing is kept that has read the written slot, something in it or something around it. -/
  forgets : ∀ key entry, t.world.cache.lookup key = some entry →
    ∀ slot ∈ entry.reads, ¬ slot.Related write.logical
  /-- Reads give what they give on a new tree exactly if so does all that is kept of what the change
  affects. -/
  as_new_iff : t.ReadsAsNew (· = .empty) ↔ t.KeepsRight (· = .empty) (Affected met)
  /-- Where nothing is kept of what the change affects, reads give exactly that. -/
  exact : t.Unaffected met → t.ReadsExactly (· = .empty)

/-- What plain reads leave as it was, and what they add. -/
structure Grown (f : String → List Value → Except String Value) (t₀ t : Tree σ) : Prop where
  idle : t.inflight = []
  options : t.options = t₀.options
  document : t.document = t₀.document
  context : t.context = t₀.context
  grows : Cache.empty.Grows (t.setting f .empty) True t.world.cache

theorem Grown.serves (h : Grown f t₀ t) (hp : t₀.options.Pure f) {t' : Tree σ}
    (hs : Serves (· = .empty) t t') : Grown f t₀ t' := by
  cases hs with
  | @read base text asked r among gives =>
    have hf : t.world.cache.Faithful (t.setting f asked.own) True := by
      rw [among]
      exact (Cache.faithful_empty _ _).grows (setting_coherent t f _) h.grows
    have ha := gives.answered (h.options ▸ hp) h.idle hf
    rw [among] at ha
    have hS : t'.setting f .empty = t.setting f .empty :=
      setting_congr (congrArg Options.registry ha.options) ha.document ha.context _
    exact ⟨ha.idle, ha.options.trans h.options, ha.document.trans h.document,
      ha.context.trans h.context, hS ▸ h.grows.trans ha.grows⟩

theorem grown_of_reads {document : Value} {options : Options σ} {host : σ} (hp : options.Pure f)
    (hnew : ofValue document options host = .ok t₀) (hr : t₀.Reads t) : Grown f t₀ t := by
  obtain ⟨-, rfl⟩ := ofValue_eq_ok.1 hnew
  induction hr with
  | refl => exact ⟨rfl, rfl, rfl, rfl, .refl _⟩
  | tail _ hs ih => exact ih.serves hp hs

/-- What a change of the document does not affect keeps its account. -/
theorem Grown.account_of_not_affected (h : Grown f t₀ t) {document : Value} {write : Path}
    {met : Path → Prop}
    (hfind : ∀ path, (∀ slot ∈ walkReads path, ¬ met slot) →
      locate document path t.context = locate t.document path t.context)
    {site : Site} {entry : CacheEntry}
    (hl : (t.written document write).world.cache.lookup (Request.keyOf site) = some entry)
    (hs : ((t.written document write).setting f .empty).Locates site)
    (hn : ¬ Affected met site entry) :
    ∃ n a, ((t.written document write).setting f .empty).account n site = some a ∧
      a.result = entry.value ∧ (t.written document write).world.cache.Backs True a entry.reads :=
  h.grows.account_of_not_affected (setting_coherent t f _)
    (setting_coherent (t.written document write) f _) (fun _ => setting_find) rfl
    (fun path hm => congrArg Found.ofLocated (hfind path hm)) hl hs hn

/-- A change of the document after plain reads leaves right what it does not affect. -/
theorem Grown.readsAfter (h : Grown f t₀ t) (hp : t₀.options.Pure f) (ha : t₀.options.Answers)
    {document : Value} {write : Path} (hm : document.isObject = true) {met : Path → Prop}
    (hfind : ∀ path, (∀ slot ∈ walkReads path, ¬ met slot) →
      locate document path t.context = locate t.document path t.context) :
    (t.written document write).ReadsAfter met write := by
  have hp' : (t.written document write).options.Pure f := h.options ▸ hp
  have ha' : (t.written document write).options.Answers := h.options ▸ ha
  have hi : (t.written document write).inflight = [] := h.idle
  have ht := h.grows.timely Cache.timely_empty
  refine ⟨?_, ?_, ?_⟩
  · intro key entry hl slot hslot hrel
    exact (ht.lookup_invalidate.1 hl).2.2 ⟨slot, hslot, hrel⟩
  · rw [readsAsNew_iff hp' ha' hi hm (ht.invalidate write)]
    refine ⟨fun hk c path site entry hc hl he _ => hk c path site entry hc hl he trivial, ?_⟩
    rintro hk c path site entry rfl hl he -
    by_cases hmet : Affected met site entry
    · exact hk _ path site entry rfl hl he hmet
    · have hs : ((t.written document write).setting f .empty).Locates site :=
        Request.setting_locates.2 ⟨path, hl⟩
      obtain ⟨n, a, hacc, hv, -⟩ := h.account_of_not_affected hfind he hs hmet
      exact (newlyGives_site_iff hp' ha' hs).2 ⟨n, a, hacc, hv⟩
  · intro hun
    refine readsExactly_of_faithful hp' ha' hi hm ?_
    rintro c rfl
    refine ⟨ht.invalidate write, ?_⟩
    rintro key entry hl site hs rfl
    obtain ⟨path, hlocate⟩ := Request.setting_locates.1 hs
    exact h.account_of_not_affected hfind hl hs (hun path site entry hlocate hl)

theorem Grown.readsAfter_changed (h : Grown f t₀ t) (hp : t₀.options.Pure f)
    (ha : t₀.options.Answers) (hm : t.document.isObject = true) {places : List Place}
    {document : Value} (hc : Changed places t.document document) (write : Path) :
    (t.written document write).ReadsAfter (Place.Meets places ·.segments) write :=
  h.readsAfter hp ha (hc.isObject_eq.trans hm) fun _ hunmet => hc.locate_eq hunmet t.context

end Tree

end LiveDoc
