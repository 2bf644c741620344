import LiveDoc.Proofs.Fingerprint
import LiveDoc.Proofs.Reading
import Mathlib

/-! # Contexts of calls

The result of an expression is kept under the context in force at the mapping that owns it, but its
references start again from the root, under the context of the call. Reads under several contexts
keep apart exactly if expressions with one key have one value under all of these contexts.
-/

namespace LiveDoc

variable {σ : Type}

/-- A read of what a path holds under a context of the call. -/
def ReadOptions.under (context : Context) : ReadOptions :=
  ⟨false, none, some context⟩

theorem Cache.faithful_empty (S : Setting) (traced : Prop) : Cache.empty.Faithful S traced :=
  ⟨timely_empty, fun _ _ hl => by cases hl⟩

/-- A read that comes straight to an expression has the account of the expression. -/
theorem Plan.account_resolve {S : Setting} {path : Path} {site : Site} {fresh : Bool}
    {valueOf : Site → Option (Account Value)} {b : Account (Option Value)}
    (h : S.find path = .expression site) :
    (Plan.resolve fresh path).account S valueOf = some b ↔ ∃ a, valueOf site = some a ∧
      b = ⟨a.result.descend? site.rest, walkReads path ++ a.reads, a.uses⟩ := by
  have hd : descend fresh (S.find path).levels (S.find path) =
      .evaluate site fresh fun v => return v.descend? site.rest := by
    rw [h]
    rfl
  constructor
  · intro hb
    obtain ⟨c, hc, rfl⟩ := account_find.1 hb
    rw [hd] at hc
    obtain ⟨a, ha, d, hd, rfl⟩ := account_evaluate.1 hc
    cases hd
    exact ⟨a, ha, by simp [Account.after]⟩
  · rintro ⟨a, ha, rfl⟩
    refine account_find.2 ⟨⟨a.result.descend? site.rest, a.reads, a.uses⟩, ?_, rfl⟩
    rw [hd]
    exact account_evaluate.2 ⟨a, ha, _, rfl, by simp [Account.after]⟩

namespace Tree

variable (document : Value) (options : Options σ) (host : σ) (C : Context → Prop)

/-- A new tree in which expressions may nest as deep as given. -/
def upTo (depth : Nat) : Tree σ :=
  ofDocument document { options with maxDepth := depth } host

/-- A new tree gives a value if its expressions may nest deep enough. -/
def Yields (base : Path) (text : String) (asked : ReadOptions) (v : Option Value) : Prop :=
  ∃ depth t', (upTo document options host depth).Gives base text asked (.ok v) t'

/-- A read under one of some contexts of the call. -/
inductive Serves (C : Context → Prop) : Tree σ → Tree σ → Prop where
  | read {t t' : Tree σ} {base : Path} {text : String} {asked : ReadOptions} {r : ReadResult}
    (among : C asked.own) (gives : t.Gives base text asked r t') : Serves C t t'

/-- A tree after reads under some contexts of the call, and nothing else. -/
def Served (depth : Nat) : Tree σ → Prop :=
  Relation.ReflTransGen (Serves C) (upTo document options host depth)

/-- Expressions with one key have one value, whichever of the contexts they are met under. -/
def KeysTellValues : Prop :=
  ∀ c c' path path' site site' v, C c → C c' →
    locate document path (options.context.merge c) = .expression site →
    locate document path' (options.context.merge c') = .expression site' →
    Request.keyOf site = Request.keyOf site' →
    Yields document options host site.path "" (.under c) (some v) →
    Yields document options host site'.path "" (.under c') (some v)

/-- Expressions with one key are met under one context. -/
def KeysTellContexts : Prop :=
  ∀ c c' path path' site site', C c → C c' →
    locate document path (options.context.merge c) = .expression site →
    locate document path' (options.context.merge c') = .expression site' →
    Request.keyOf site = Request.keyOf site' → options.context.merge c = options.context.merge c'

/-- Reads under some contexts of the call do not get in one another's way. -/
structure CallsApart : Prop where
  /-- A read gives what it gives on a new tree, unless evaluations nest too deep in one of them. -/
  agree : ∀ depth t base text asked r t' host' r' t'', Served document options host C depth t →
    C asked.own → t.Gives base text asked r t' →
    (upTo document options host' depth).Gives base text asked r' t'' →
    r = r' ∨ r.IsTooDeep ∨ r'.IsTooDeep
  /-- A value that a read gives is the one that a new tree gives. -/
  sound : ∀ depth t base text asked v t', Served document options host C depth t → C asked.own →
    t.Gives base text asked (.ok v) t' → Yields document options host base text asked v
  /-- A value that a new tree gives is given after any reads where evaluations may nest deep
  enough. -/
  complete : ∀ base text asked v, C asked.own → Yields document options host base text asked v →
    ∃ enough, ∀ depth t r t', enough ≤ depth → Served document options host C depth t →
      t.Gives base text asked r t' → r = .ok v

/-- A read gives what it gives on a new tree, unless evaluations nest too deep in the new tree. -/
def CallsExact : Prop :=
  ∀ depth t base text asked r t' host' r' t'', Served document options host C depth t →
    C asked.own → t.Gives base text asked r t' →
    (upTo document options host' depth).Gives base text asked r' t'' → ¬ r'.IsTooDeep → r = r'

/-- What reads under a context of the call are answered with on a new tree. -/
def newSetting (f : String → List Value → Except String Value) (c : Context) : Setting :=
  (upTo document options host 0).setting f c

variable {document options host C} {f : String → List Value → Except String Value} {c : Context}
  {site : Site}

theorem newSetting_locates : (newSetting document options host f c).Locates site ↔
    ∃ path, locate document path (options.context.merge c) = .expression site :=
  Request.setting_locates

/-- The place of an expression leads straight to it. -/
theorem newSetting_find (hs : (newSetting document options host f c).Locates site) :
    (newSetting document options host f c).find site.path = .expression { site with rest := [] } := by
  obtain ⟨path, hl⟩ := newSetting_locates.1 hs
  exact congrArg Found.ofLocated (locate_site hl).2.1

theorem resolve_empty (base : Path) : base.resolve "" = .ok base := by
  have hp : Path.parse "" = .ok .root := by decide
  simp only [Path.resolve, hp, bind, Except.bind, Path.join, Path.root, Path.follow?]

section New

variable (hp : options.Pure f) (ha : options.Answers)

include hp in
theorem upTo_answered {depth : Nat} {base : Path} {text : String} {asked : ReadOptions}
    {r : ReadResult} {t' : Tree σ} (traced : Prop)
    (hg : (upTo document options host depth).Gives base text asked r t') :
    Answered (newSetting document options host f asked.own) traced
      (upTo document options host depth) base text asked r t' :=
  hg.answered ⟨hp.onError, hp.computes⟩ rfl (Cache.faithful_empty _ _)

include hp ha in
theorem yields_iff {base : Path} {text : String} {asked : ReadOptions} {v : Option Value} :
    Yields document options host base text asked v ↔ ∃ n a,
      account? (newSetting document options host f asked.own) n base text asked = some a ∧
        v = a.result.or asked.fallback := by
  constructor
  · rintro ⟨depth, t', hg⟩
    obtain ⟨n, a, ha, hv, -⟩ := (upTo_answered hp False hg).ok v rfl
    exact ⟨n, a, ha, hv⟩
  · rintro ⟨n, a, hacc, rfl⟩
    obtain ⟨r, t', hg⟩ :=
      exists_gives (t := upTo document options host n) ha rfl base text asked
    obtain rfl := (upTo_answered hp False hg).of_account hacc (Nat.le_refl n)
    exact ⟨n, t', hg⟩

theorem account?_site (hs : (newSetting document options host f c).Locates site) {n : Nat}
    {b : Account (Option Value)} :
    account? (newSetting document options host f c) n site.path "" (.under c) = some b ↔
      ∃ a, (newSetting document options host f c).account n site = some a ∧
        b = ⟨some a.result, walkReads site.path ++ a.reads, a.uses⟩ := by
  have hsame : Site.Same { site with rest := [] } site := ⟨rfl, rfl, rfl⟩
  simp only [account?, resolve_empty, ReadOptions.under, Plan.account_resolve (newSetting_find hs),
    Setting.account_congr hsame, Value.descend?]

include hp ha in
theorem yields_site_iff (hs : (newSetting document options host f c).Locates site) {v : Value} :
    Yields document options host site.path "" (.under c) (some v) ↔ ∃ n a,
      (newSetting document options host f c).account n site = some a ∧ a.result = v := by
  rw [yields_iff hp ha]
  constructor
  · rintro ⟨n, b, hb, hv⟩
    obtain ⟨a, ha, rfl⟩ := (account?_site hs).1 hb
    exact ⟨n, a, ha, (Option.some.inj hv).symm⟩
  · rintro ⟨n, a, ha, rfl⟩
    exact ⟨n, _, (account?_site hs).2 ⟨a, ha, rfl⟩, rfl⟩

include hp ha in
theorem keysTellValues_iff : KeysTellValues document options host C ↔ ∀ c c', C c → C c' →
    (newSetting document options host f c).Carries False
      (newSetting document options host f c') := by
  constructor
  · intro h c c' hc hc' site site' hs hs' hk n a hacc
    obtain ⟨path, hl⟩ := newSetting_locates.1 hs
    obtain ⟨path', hl'⟩ := newSetting_locates.1 hs'
    obtain ⟨m, b, hb, hv⟩ := (yields_site_iff hp ha hs').1
      (h c c' path path' site site' a.result hc hc' hl hl' hk
        ((yields_site_iff hp ha hs).2 ⟨n, a, hacc, rfl⟩))
    exact ⟨m, b, hb, hv, False.elim⟩
  · intro h c c' path path' site site' v hc hc' hl hl' hk hy
    have hs : (newSetting document options host f c).Locates site :=
      newSetting_locates.2 ⟨path, hl⟩
    have hs' : (newSetting document options host f c').Locates site' :=
      newSetting_locates.2 ⟨path', hl'⟩
    obtain ⟨n, a, hacc, rfl⟩ := (yields_site_iff hp ha hs).1 hy
    obtain ⟨m, b, hb, hv, -⟩ := h c c' hc hc' site site' hs hs' hk n a hacc
    exact (yields_site_iff hp ha hs').2 ⟨m, b, hb, hv⟩

/-! ## Runs of reads -/

/-- A tree that has served reads only, with all that it keeps right under each of the contexts. -/
structure Serving (document : Value) (options : Options σ) (host : σ) (C : Context → Prop)
    (f : String → List Value → Except String Value) (traced : Prop) (depth : Nat) (t : Tree σ) :
    Prop where
  idle : t.inflight = []
  options_eq : t.options = { options with maxDepth := depth }
  document_eq : t.document = document
  context_eq : t.context = options.context
  faithful : ∀ c, C c →
    t.world.cache.Faithful (newSetting document options host f c) traced

theorem Serving.setting {traced : Prop} {depth : Nat} {t : Tree σ}
    (h : Serving document options host C f traced depth t) (c : Context) :
    t.setting f c = newSetting document options host f c := by
  have hr : t.options.registry = options.registry := by rw [h.options_eq]
  exact setting_congr hr h.document_eq h.context_eq c

include hp in
theorem Serving.answered {traced : Prop} {depth : Nat} {t t' : Tree σ}
    (h : Serving document options host C f traced depth t) {base : Path} {text : String}
    {asked : ReadOptions} {r : ReadResult} (hc : C asked.own) (hg : t.Gives base text asked r t') :
    Answered (newSetting document options host f asked.own) traced t base text asked r t' := by
  have hpt : t.options.Pure f := by
    rw [h.options_eq]
    exact ⟨hp.onError, hp.computes⟩
  have hf := h.faithful asked.own hc
  rw [← h.setting] at hf
  have ha := hg.answered hpt h.idle hf
  rwa [h.setting] at ha

include hp in
theorem Serving.serves {traced : Prop}
    (hcarry : ∀ c c', C c → C c' → (newSetting document options host f c).Carries traced
      (newSetting document options host f c')) {depth : Nat} {t t' : Tree σ}
    (h : Serving document options host C f traced depth t) (hs : Serves C t t') :
    Serving document options host C f traced depth t' := by
  cases hs with
  | @read base text asked r among gives =>
    have ha := h.answered hp among gives
    exact ⟨ha.idle, ha.options.trans h.options_eq, ha.document.trans h.document_eq,
      ha.context.trans h.context_eq,
      fun c hc => (h.faithful c hc).carried (hcarry asked.own c among hc) ha.grows⟩

include hp in
theorem serving_of_served {traced : Prop}
    (hcarry : ∀ c c', C c → C c' → (newSetting document options host f c).Carries traced
      (newSetting document options host f c')) {depth : Nat} {t : Tree σ}
    (h : Served document options host C depth t) :
    Serving document options host C f traced depth t := by
  induction h with
  | refl => exact ⟨rfl, rfl, rfl, rfl, fun _ _ => Cache.faithful_empty _ _⟩
  | tail _ hs ih => exact ih.serves hp hcarry hs

include hp in
theorem Serving.agree {traced : Prop} {depth : Nat} {t : Tree σ}
    (h : Serving document options host C f traced depth t) {base : Path} {text : String}
    {asked : ReadOptions} {r : ReadResult} {t' : Tree σ} {host' : σ} {r' : ReadResult}
    {t'' : Tree σ} (hc : C asked.own) (hg : t.Gives base text asked r t')
    (hg' : (upTo document options host' depth).Gives base text asked r' t'') :
    r'.IsTooDeep ∨ (¬ traced ∧ r.IsTooDeep) ∨ r' = r := by
  have hp' : (upTo document options host' depth).options.Pure f := ⟨hp.onError, hp.computes⟩
  have hpt : t.options.Pure f := by
    rw [h.options_eq]
    exact hp'
  have hS : (upTo document options host' depth).setting f asked.own = t.setting f asked.own :=
    (h.setting asked.own).symm
  have hf := h.faithful asked.own hc
  rw [← h.setting] at hf
  have hnone (key : CacheKey) : ¬ (upTo document options host' depth).world.cache.Known key :=
    fun hk => by cases hk
  exact Gives.agree hp' hpt rfl h.idle hS (congrArg Options.maxDepth h.options_eq).symm
    (Cache.faithful_empty _ _) hf (fun _ key hk => absurd hk (hnone key)) hg' hg

include hp ha in
theorem callsApart_of_keysTellValues (h : KeysTellValues document options host C) :
    CallsApart document options host C := by
  have hcarry := (keysTellValues_iff hp ha).1 h
  refine ⟨?_, ?_, ?_⟩
  · intro depth t base text asked r t' host' r' t'' hs hc hg hg'
    rcases (serving_of_served hp hcarry hs).agree hp hc hg hg' with h | ⟨-, h⟩ | h
    · exact .inr (.inr h)
    · exact .inr (.inl h)
    · exact .inl h.symm
  · intro depth t base text asked v t' hs hc hg
    obtain ⟨n, a, hacc, hv, -⟩ := ((serving_of_served hp hcarry hs).answered hp hc hg).ok v rfl
    exact (yields_iff hp ha).2 ⟨n, a, hacc, hv⟩
  · intro base text asked v hc hy
    obtain ⟨n, a, hacc, rfl⟩ := (yields_iff hp ha).1 hy
    refine ⟨n, fun depth t r t' hn hs hg => ?_⟩
    have hserving := serving_of_served hp hcarry hs
    refine (hserving.answered hp hc hg).of_account hacc ?_
    rw [hserving.options_eq]
    exact hn

include hp ha in
/-- A kept value shows itself under every context that meets an expression with its key. -/
theorem keysTellValues_of_callsApart (h : CallsApart document options host C) :
    KeysTellValues document options host C := by
  intro c c' path path' site site' v hc hc' hl hl' hk hy
  have hs : (newSetting document options host f c).Locates site :=
    newSetting_locates.2 ⟨path, hl⟩
  have hs' : (newSetting document options host f c').Locates site' :=
    newSetting_locates.2 ⟨path', hl'⟩
  obtain ⟨n, a, hacc, rfl⟩ := (yields_site_iff hp ha hs).1 hy
  have hb := (account?_site hs).2 ⟨a, hacc, rfl⟩
  -- the first read keeps the value
  obtain ⟨r₁, t₁, hg₁⟩ := exists_gives (t := upTo document options host n) ha rfl site.path ""
    (.under c)
  have h₁ := upTo_answered hp True hg₁
  obtain rfl := h₁.of_account hb (Nat.le_refl n)
  obtain ⟨m, b, hb', -, hknown⟩ := h₁.ok _ rfl
  obtain rfl := account?_unique hb hb'
  have huses : Request.keyOf site ∈ a.uses := Setting.key_mem_uses hacc
  obtain ⟨entry, hentry⟩ := Option.isSome_iff_exists.1 (hknown trivial _ huses)
  have hvalue : entry.value = a.result := by
    rcases h₁.grows.added _ entry hentry with hnone | ⟨site₀, k, a₀, hs₀, hk₀, ha₀, hv₀, -⟩
    · cases hnone
    · have hsame := setting_coherent _ f c site₀ site hs₀ hs (congrArg CacheKey.path hk₀)
      rw [← hv₀, (newSetting document options host f c).account_unique
        ((Setting.account_congr hsame k).symm.trans ha₀) hacc]
  -- the second read meets it
  obtain ⟨r₂, t₂, hg₂⟩ := exists_gives (t := t₁) (h₁.options ▸ ha) h₁.idle site'.path "" (.under c')
  have hset : t₁.setting f c' = newSetting document options host f c' :=
    setting_congr (congrArg Options.registry h₁.options) h₁.document h₁.context c'
  have hfind : (t₁.setting f c').find site'.path = .expression { site' with rest := [] } := by
    rw [hset, newSetting_find hs']
  have hentry : t₁.world.cache.lookup (Request.keyOf { site' with rest := [] }) = some entry := by
    rw [← hentry, hk]
    rfl
  have hr₂ := hg₂.of_kept (h₁.options ▸ hp.onError) h₁.idle (resolve_empty _) rfl hfind hentry
  rw [hr₂, hvalue] at hg₂
  have among : C (ReadOptions.under c).own := hc
  have hserves : Serves C (upTo document options host n) t₁ := .read among hg₁
  exact h.sound n t₁ site'.path "" (.under c') (some a.result) t₂ (.single hserves) hc' hg₂

include hp in
/-- Where keys tell contexts, reads give exactly what they give on new trees. -/
theorem callsExact_of_keysTellContexts (h : KeysTellContexts document options C) :
    CallsExact document options host C := by
  have hcarry (c c' : Context) (hc : C c) (hc' : C c') :
      (newSetting document options host f c).Carries True
        (newSetting document options host f c') := by
    intro site site' hs hs' hk
    obtain ⟨path, hl⟩ := newSetting_locates.1 hs
    obtain ⟨path', hl'⟩ := newSetting_locates.1 hs'
    have hS : newSetting document options host f c = newSetting document options host f c' := by
      have hmerge := h c c' path path' site site' hc hc' hl hl' hk
      unfold newSetting setting Request.setting
      show Setting.mk (fun path => .ofLocated (locate document path (options.context.merge c))) _ =
        Setting.mk (fun path => .ofLocated (locate document path (options.context.merge c'))) _
      rw [hmerge]
      rfl
    have hcoh : (newSetting document options host f c).Coherent := setting_coherent _ f c
    rw [← hS] at hs' ⊢
    exact hcoh.carries True site site' hs hs' hk
  intro depth t base text asked r t' host' r' t'' hs hc hg hg' hdeep
  rcases (serving_of_served hp hcarry hs).agree hp hc hg hg' with h | ⟨h, -⟩ | h
  · exact absurd h hdeep
  · exact absurd trivial h
  · exact h.symm

end New

/-- Where no mapping declares a context, keys tell the contexts of the calls. -/
theorem keysTellContexts_of_plain
    (hplain : ∀ keys child, document.descend? keys = some child → Context.own child = .empty)
    (hclean : ∀ c, C c → Context.Clean (options.context.merge c)) :
    KeysTellContexts document options C := by
  intro c c' path path' site site' hc hc' hl hl' hk
  have hcontext {base : Context} {path : Path} {site : Site}
      (h : locate document path base = .expression site) : site.context = base := by
    refine locate_context (P := (· = base)) (fun keys child c hk hc => ?_) rfl h
    rw [hplain keys child hk, ← hc]
    rfl
  have hscope : site.context.fingerprint = site'.context.fingerprint :=
    congrArg CacheKey.scope hk
  rw [hcontext hl, hcontext hl'] at hscope
  exact Context.fingerprint_injective (hclean c hc) (hclean c' hc') hscope

/-- Where no mapping declares a context, every read gives what it gives on a new tree. -/
theorem callsExact_of_plain (hp : options.Pure f)
    (hplain : ∀ keys child, document.descend? keys = some child → Context.own child = .empty)
    (hclean : ∀ c, C c → Context.Clean (options.context.merge c)) :
    CallsExact document options host C :=
  callsExact_of_keysTellContexts hp (keysTellContexts_of_plain hplain hclean)

/-- Reads under contexts of the call keep apart exactly if keys tell the values of expressions. If
keys even tell the contexts of the calls, every read gives what it gives on a new tree, unless
evaluations nest too deep there. -/
theorem callsApart_iff (hp : options.Pure f) (ha : options.Answers) :
    (CallsApart document options host C ↔ KeysTellValues document options host C) ∧
      (KeysTellContexts document options C → CallsExact document options host C) :=
  ⟨⟨keysTellValues_of_callsApart hp ha, callsApart_of_keysTellValues hp ha⟩,
    callsExact_of_keysTellContexts hp⟩

/-- A menu that fixes its language and quotes a title from outside, where the language of the call
decides. -/
def menu : Value :=
  .obj [("title", .str "Home"), ("title:es", .str "Inicio"),
    ("menu", .obj [("$context", .obj [("lang", .str "en")]), (".t", .str "${^.title}")])]

def inLanguage (language : String) : ReadOptions :=
  .under (.ofList [("lang", language)])

theorem menu_in_english : ((ofDocument menu .default ()).get .root "menu.t" (inLanguage "en")).2 =
    some (.ok (some (.str "Home"))) := by
  cbv

theorem menu_in_spanish : ((ofDocument menu .default ()).get .root "menu.t" (inLanguage "es")).2 =
    some (.ok (some (.str "Inicio"))) := by
  cbv

theorem menu_after_spanish : ((((ofDocument menu .default ()).get .root "menu.t"
    (inLanguage "es")).1).get .root "menu.t" (inLanguage "en")).2 =
      some (.ok (some (.str "Inicio"))) := by
  cbv

/-- A title that was kept for one language is given for another. -/
theorem call_context_leaks : ∃ t, Served menu .default () (· = (inLanguage "es").own) 100 t ∧
    (t.get .root "menu.t" (inLanguage "en")).2 = some (.ok (some (.str "Inicio"))) ∧
    ((ofDocument menu .default ()).get .root "menu.t" (inLanguage "en")).2 =
      some (.ok (some (.str "Home"))) :=
  ⟨_, .single (.read rfl (gives_of_get (Prod.ext rfl menu_in_spanish))), menu_after_spanish,
    menu_in_english⟩

/-- The keys of the menu do not tell its titles. -/
theorem menu_keys_mislead : ¬ KeysTellValues menu .default () (∃ s, · = (inLanguage s).own) := by
  intro h
  have hp : (Options.default : Options Unit).Pure fun _ _ => .ok .null := ⟨rfl, nofun⟩
  have hapart := (callsApart_iff hp nofun).1.2 h
  have hserved : Served menu .default () (∃ s, · = (inLanguage s).own) 100
      ((ofDocument menu .default ()).get .root "menu.t" (inLanguage "es")).1 :=
    .single (.read ⟨"es", rfl⟩ (gives_of_get (Prod.ext rfl menu_in_spanish)))
  rcases hapart.agree 100 _ .root "menu.t" (inLanguage "en") _ _ () _ _ hserved ⟨"en", rfl⟩
    (gives_of_get (Prod.ext rfl menu_after_spanish))
    (gives_of_get (Prod.ext rfl menu_in_english)) with h | ⟨limit, path, h⟩ | ⟨limit, path, h⟩
  · simp at h
  · cases h
  · cases h

end Tree

end LiveDoc
