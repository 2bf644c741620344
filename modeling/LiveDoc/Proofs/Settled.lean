import LiveDoc.Proofs.Fingerprint
import LiveDoc.Proofs.Relocation

/-! # Kept results of a document

Between reads every kept result that is fresh has an account of an expression that the document
holds. A write keeps it so: what it leaves fresh has read nothing that the write is related to.
-/

namespace LiveDoc

/-! ## Clean documents -/

/-- All contexts that the mappings of a value declare are clean. -/
def Value.CleanContexts (v : Value) : Prop :=
  ∀ keys child, v.descend? keys = some child → (Context.own child).Clean

theorem Value.cleanContexts_str (s : String) : (Value.str s).CleanContexts := by
  intro keys child h
  cases keys with
  | nil =>
    cases h
    exact Context.clean_empty
  | cons key rest => cases h

theorem Value.cleanContexts_obj {members : Members} (hown : (Context.ofMembers members).Clean)
    (h : ∀ e ∈ members, e.2.CleanContexts) : (Value.obj members).CleanContexts := by
  intro keys part hp
  cases keys with
  | nil =>
    cases hp
    exact hown
  | cons key rest =>
    obtain ⟨child, hc, hp⟩ := Option.bind_eq_some_iff.1 hp
    exact h _ (Assoc.mem_of_lookup hc) rest part hp

/-- The expression lies in the document, and its context can be told by its fingerprint. -/
structure Value.Holds (document : Value) (site : Site) : Prop where
  text : document.descend? site.path.segments = some (.str site.text)
  clean : site.context.Clean

theorem Value.holds_of_locate {document : Value} (hd : document.CleanContexts) {context : Context}
    (hc : context.Clean) {path : Path} {site : Site}
    (h : locate document path context = .expression site) : document.Holds site :=
  ⟨(locate_site h).1, locate_context (fun keys child _ hk hc => hc.merge (hd keys child hk)) hc h⟩

/-- What a document holds is told by its key. -/
theorem Value.Holds.same {document : Value} {s s' : Site} (h : document.Holds s)
    (h' : document.Holds s') (hk : Request.keyOf s = Request.keyOf s') : s.Same s' := by
  obtain ⟨hpath, hscope⟩ := CacheKey.mk.inj hk
  have htext := h.text
  rw [hpath, h'.text, Option.some.injEq, Value.str.injEq] at htext
  exact ⟨hpath, htext.symm, Context.fingerprint_injective h.clean h'.clean hscope⟩

/-! ## Settled caches -/

namespace Cache

/-- What is kept and fresh has an account of an expression that the document holds. -/
structure Settled (S : Setting) (document : Value) (c : Cache) : Prop where
  timely : c.Timely
  accounted : ∀ key entry, c.lookup key = some entry → ∃ site n a, document.Holds site ∧
    Request.keyOf site = key ∧ S.account n site = some a ∧ a.result = entry.value ∧
    c.Backs True a entry.reads

variable {S S' : Setting} {document document' : Value} {c c' : Cache}

theorem Settled.of_unknown (hc : c.Timely) (h : ∀ key, c.lookup key = none) :
    c.Settled S document where
  timely := hc
  accounted key entry hl := by
    rw [h key] at hl
    cases hl

theorem Settled.faithful (h : c.Settled S document)
    (hS : ∀ site, S.Locates site → document.Holds site) : c.Faithful S True where
  timely := h.timely
  sound key entry hl site hs hk := by
    obtain ⟨site', n, a, hs', hk', ha, hv, hb⟩ := h.accounted key entry hl
    have hsame := (hS site hs).same hs' (hk.trans hk'.symm)
    exact ⟨n, a, by rw [S.account_congr hsame, ha], hv, hb⟩

theorem Settled.grows (h : c.Settled S document)
    (hS : ∀ site, S.Locates site → document.Holds site) (hg : c.Grows S True c') :
    c'.Settled S document where
  timely := hg.timely h.timely
  accounted key entry hl := by
    rcases hg.added key entry hl with hl | ⟨site, n, a, hs, hk, ha, hv, hb⟩
    · obtain ⟨site, n, a, hs, hk, ha, hv, hb⟩ := h.accounted key entry hl
      exact ⟨site, n, a, hs, hk, ha, hv, hb.mono hg.known⟩
    · exact ⟨site, n, a, hS site hs, hk, ha, hv, hb⟩

/-- Everything kept and fresh has an account of an expression that satisfies a condition. -/
def Accounts (S : Setting) (P : Site → Prop) (c : Cache) : Prop :=
  ∀ key entry, c.lookup key = some entry → ∃ site n a, P site ∧ Request.keyOf site = key ∧
    S.account n site = some a ∧ a.result = entry.value ∧ c.Backs True a entry.reads

section Outliving

variable {P : Site → Prop} (ht : c.Timely) (hacc : c.Accounts S P)
  (hP : ∀ site, S.Locates site → P site)
  (hsame : ∀ s s', P s → P s' → Request.keyOf s = Request.keyOf s' → s.Same s')

include ht hacc hP hsame in
/-- What an account with unrelated reads has used outlives a write. -/
theorem known_invalidate {write : Path} {site : Site} {n : Nat} {a : Account Value} (hs : P site)
    (ha : S.account n site = some a) (hk : ∀ key ∈ a.uses, c.Known key)
    (hr : ∀ slot ∈ a.reads, ¬ slot.Related write.logical) {key : CacheKey} (hkey : key ∈ a.uses) :
    (c.invalidate write).Known key := by
  obtain ⟨inner, m, b, hi, hb, rfl, hreads⟩ := Setting.account_uses
    (fun site _ => (Plan.evaluates_render site).mono hP) hs ha hkey
  obtain ⟨entry, hl⟩ := Option.isSome_iff_exists.1 (hk _ hkey)
  obtain ⟨inner', m', b', hi', hk', hb', -, hback⟩ := hacc _ entry hl
  rw [S.account_congr (hsame _ _ hi' hi hk')] at hb'
  obtain rfl := S.account_unique hb hb'
  have hl' : (c.invalidate write).lookup (Request.keyOf inner) = some entry := by
    refine ht.lookup_invalidate.2 ⟨hl, fun he => ?_, ?_⟩
    · have he : inner.path.logical = write.logical := he
      exact hr _ (hreads _ (Setting.path_mem_reads hb)) (he ▸ Path.Related.refl _)
    · rintro ⟨slot, hslot, hrel⟩
      exact hr slot (hreads slot (((hback trivial).1 slot).1 hslot)) hrel
  rw [Known, hl']
  rfl

include ht hacc hP hsame in
/-- What outlives a write has read nothing related to it, and is still accounted for as before. -/
theorem accounts_invalidate {write : Path} {key : CacheKey} {entry : CacheEntry}
    (hl : (c.invalidate write).lookup key = some entry) :
    ∃ site n a, P site ∧ Request.keyOf site = key ∧ S.account n site = some a ∧
      a.result = entry.value ∧ (∀ slot ∈ a.reads, ¬ slot.Related write.logical) ∧
      (c.invalidate write).Backs True a entry.reads := by
  obtain ⟨hl, -, hc⟩ := ht.lookup_invalidate.1 hl
  obtain ⟨site, n, a, hs, hk, ha, hv, hb⟩ := hacc key entry hl
  obtain ⟨hreads, hknown⟩ := hb trivial
  have hr (slot : Path) (hslot : slot ∈ a.reads) : ¬ slot.Related write.logical :=
    fun hrel => hc ⟨slot, (hreads slot).2 hslot, hrel⟩
  exact ⟨site, n, a, hs, hk, ha, hv, hr, fun _ =>
    ⟨hreads, fun key hkey => known_invalidate ht hacc hP hsame hs ha hknown hr hkey⟩⟩

end Outliving

/-- A write that leaves all unrelated finds and texts as they are keeps a cache settled. -/
theorem Settled.invalidate (h : c.Settled S document)
    (hS : ∀ site, S.Locates site → document.Holds site) {write : Path} (hcall : S'.call = S.call)
    (hfind : ∀ path, (∀ slot ∈ walkReads path, ¬ slot.Related write.logical) →
      S'.find path = S.find path)
    (htext : ∀ path : Path, ¬ path.logical.Related write.logical →
      document'.descend? path.segments = document.descend? path.segments) :
    (c.invalidate write).Settled S' document' where
  timely := h.timely.invalidate write
  accounted key entry hl := by
    obtain ⟨site, n, a, hs, hk, ha, hv, hr, hb⟩ :=
      accounts_invalidate h.timely h.accounted hS (fun _ _ => Value.Holds.same) hl
    refine ⟨site, n, a, ⟨?_, hs.clean⟩, hk, Setting.account_stable hcall hfind ha hr, hv, hb⟩
    rw [htext site.path (hr _ (Setting.path_mem_reads ha)), hs.text]

end Cache

end LiveDoc
