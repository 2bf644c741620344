import LiveDoc.Proofs.Getting
import LiveDoc.Proofs.Lockstep
import LiveDoc.Proofs.Relocation

/-! # Whole reads and accounts

A whole read in a tree whose kept results are right comes to what its account says, adds only right
results to what is kept, and changes neither the document nor the global context.
-/

namespace LiveDoc

variable {σ : Type}

/-- The context of the call, over the global one. -/
def ReadOptions.own (asked : ReadOptions) : Context :=
  asked.context.getD .empty

namespace Tree

/-- What reads under a context of the call are answered with. -/
def setting (t : Tree σ) (f : String → List Value → Except String Value) (context : Context) :
    Setting :=
  (Request.mk t.options context none).setting f t.world

variable {t t' t₁ t₂ t₁' t₂' : Tree σ} {f : String → List Value → Except String Value}
  {traced : Prop} {base : Path} {text : String} {asked : ReadOptions} {r r₁ r₂ : ReadResult}

theorem setting_coherent (t : Tree σ) (f : String → List Value → Except String Value)
    (context : Context) : (t.setting f context).Coherent :=
  Request.setting_coherent

theorem setting_findsIn (t : Tree σ) (f : String → List Value → Except String Value)
    (context : Context) :
    (t.setting f context).FindsIn t.document (t.context.merge context) :=
  Request.setting_findsIn

theorem setting_congr (hr : t₁.options.registry = t₂.options.registry)
    (hd : t₁.document = t₂.document) (hc : t₁.context = t₂.context) (context : Context) :
    t₁.setting f context = t₂.setting f context := by
  have hd : t₁.world.document = t₂.world.document := hd
  have hc : t₁.world.context = t₂.world.context := hc
  have hout : Request.outcome (Request.mk t₁.options context none) f =
      Request.outcome (Request.mk t₂.options context none) f := by
    funext name args
    rw [Request.outcome, Request.outcome, hr]
  rw [setting, setting, Request.setting, Request.setting, hd, hc, hout]

/-- The account of a read that does not fail. -/
def account? (S : Setting) (n : Nat) (base : Path) (text : String) (asked : ReadOptions) :
    Option (Account (Option Value)) :=
  match base.resolve text with
  | .ok path => (Plan.resolve asked.fresh path).account S (S.account n)
  | .error _ => none

theorem account?_unique {S : Setting} {n m : Nat} {a b : Account (Option Value)}
    (ha : account? S n base text asked = some a) (hb : account? S m base text asked = some b) :
    a = b := by
  unfold account? at ha hb
  cases hp : base.resolve text with
  | error e => simp [hp] at ha
  | ok path =>
    simp only [hp] at ha hb
    have ha := Plan.account_mono (fun _ _ => S.account_le (Nat.le_max_left n m)) ha
    have hb := Plan.account_mono (fun _ _ => S.account_le (Nat.le_max_right n m)) hb
    exact Option.some.inj (ha.symm.trans hb)

/-- What a read makes of a tree whose kept results are right, and what it gives. -/
structure Answered (S : Setting) (traced : Prop) (t : Tree σ) (base : Path) (text : String)
    (asked : ReadOptions) (r : ReadResult) (t' : Tree σ) : Prop where
  idle : t'.inflight = []
  options : t'.options = t.options
  document : t'.document = t.document
  context : t'.context = t.context
  grows : t.world.cache.Grows S traced t'.world.cache
  ok : ∀ v, r = .ok v → ∃ n a, account? S n base text asked = some a ∧
    v = a.result.or asked.fallback ∧ (traced → ∀ key ∈ a.uses, t'.world.cache.Known key)
  deep : ∀ n a, account? S n base text asked = some a →
    (∃ v, r = .ok v) ∨ r.IsTooDeep ∧ t.options.maxDepth < n

theorem Gives.answered (hp : t.options.Pure f) (hi : t.inflight = [])
    (hf : t.world.cache.Faithful (t.setting f asked.own) traced)
    (hg : t.Gives base text asked r t') :
    Answered (t.setting f asked.own) traced t base text asked r t' := by
  rcases hg.cases hi with ⟨e, he, rfl, rfl⟩ | ⟨path, hpath, hrun, hi', ho⟩
  · exact ⟨hi, rfl, rfl, rfl, .refl _, nofun, fun n a ha => by simp [account?, he] at ha⟩
  · obtain ⟨result, stack, hplan, rfl⟩ := Request.ends_read hrun
    have hS := t.setting_coherent f asked.own
    have hw : (t.request asked).setting f t.world = t.setting f asked.own := rfl
    have hacc := Request.follow_accounted hS hp (Request.evaluate_accounted hS hp _)
      (Plan.evaluates_resolve asked.fresh path) hw hf hplan
    refine ⟨hi', ho, hacc.document, hacc.context, hacc.grows, fun v hv => ?_, fun n a ha => ?_⟩
    · cases result with
      | error fault => cases hv
      | ok u =>
        obtain ⟨n, a, reads, ha, rfl, -, ht⟩ := hacc.ok u rfl
        exact ⟨n, a, by simpa only [account?, hpath] using ha, (Except.ok.inj hv).symm,
          fun htr => (ht htr).2.1⟩
    · simp only [account?, hpath] at ha
      rcases hacc.deep n a ha fun _ h => absurd h List.not_mem_nil with ⟨v, rfl⟩ | ⟨hd, hlt⟩
      · exact .inl ⟨_, rfl⟩
      · exact .inr ⟨Request.isTooDeep_conclude hd, hlt⟩

/-- What an account of a read says is given where evaluations may nest deep enough. -/
theorem Answered.of_account {S : Setting} (h : Answered S traced t base text asked r t') {n : Nat}
    {a : Account (Option Value)} (ha : account? S n base text asked = some a)
    (hn : n ≤ t.options.maxDepth) : r = .ok (a.result.or asked.fallback) := by
  rcases h.deep n a ha with ⟨v, rfl⟩ | ⟨-, hlt⟩
  · obtain ⟨m, b, hb, rfl, -⟩ := h.ok v rfl
    rw [account?_unique ha hb]
  · omega

/-- Reads of two trees over one document agree, unless evaluations nest too deep. -/
theorem Gives.agree (hp₁ : t₁.options.Pure f) (hp₂ : t₂.options.Pure f)
    (hi₁ : t₁.inflight = []) (hi₂ : t₂.inflight = [])
    (hS : t₁.setting f asked.own = t₂.setting f asked.own)
    (hdepth : t₁.options.maxDepth = t₂.options.maxDepth)
    (hf₁ : t₁.world.cache.Faithful (t₁.setting f asked.own) traced)
    (hf₂ : t₂.world.cache.Faithful (t₂.setting f asked.own) traced)
    (hknown : traced → ∀ key, t₁.world.cache.Known key → t₂.world.cache.Known key)
    (hg₁ : t₁.Gives base text asked r₁ t₁') (hg₂ : t₂.Gives base text asked r₂ t₂') :
    r₁.IsTooDeep ∨ (¬ traced ∧ r₂.IsTooDeep) ∨ r₁ = r₂ := by
  rcases hg₁.cases hi₁ with ⟨e₁, he₁, rfl, -⟩ | ⟨path₁, hpath₁, hrun₁, -⟩
  · rcases hg₂.cases hi₂ with ⟨e₂, he₂, rfl, -⟩ | ⟨path₂, hpath₂, -⟩
    · obtain rfl := Except.error.inj (he₁.symm.trans he₂)
      exact .inr (.inr rfl)
    · rw [he₁] at hpath₂
      cases hpath₂
  · rcases hg₂.cases hi₂ with ⟨e₂, he₂, -⟩ | ⟨path₂, hpath₂, hrun₂, -⟩
    · rw [hpath₁] at he₂
      cases he₂
    · obtain rfl := Except.ok.inj (hpath₁.symm.trans hpath₂)
      have hfall : (t₁.request asked).fallback = (t₂.request asked).fallback := rfl
      have hw₁ : (t₁.request asked).setting f t₁.world = t₁.setting f asked.own := rfl
      exact Request.read_agrees (t₁.setting_coherent f asked.own) hp₁ hp₂ hdepth hfall
        ⟨hw₁, hS.symm, hf₁, hS ▸ hf₂, hknown, rfl⟩ hrun₁ hrun₂

/-- A read that comes straight to an expression gives the kept result. -/
theorem Gives.of_kept (hn : t.options.onError = none) (hi : t.inflight = []) {path : Path}
    (hpath : base.resolve text = .ok path) (hfresh : asked.fresh = false) {site : Site}
    (hfind : (t.setting f asked.own).find path = .expression site) {entry : CacheEntry}
    (hl : t.world.cache.lookup (Request.keyOf site) = some entry)
    (hg : t.Gives base text asked r t') :
    r = .ok ((entry.value.descend? site.rest).or asked.fallback) := by
  rcases hg.cases hi with ⟨e, he, -⟩ | ⟨path', hpath', hrun, -⟩
  · rw [hpath] at he
    cases he
  · obtain rfl := Except.ok.inj (hpath.symm.trans hpath')
    obtain ⟨result, stack, hplan, rfl⟩ := Request.ends_read hrun
    have hfound : Found.ofLocated (locate t.world.document path
        (t.world.context.merge (t.request asked).context)) = .expression site := hfind
    simp only [Plan.resolve, Request.follow, Task.runs_bind_iff] at hplan
    obtain ⟨found, s, w, hf, hplan⟩ := hplan
    obtain ⟨rfl, rfl, rfl⟩ := Request.runs_find hf
    rw [hfound] at hplan
    have hd : Plan.descend asked.fresh (Found.expression site).levels (.expression site) =
        .evaluate site asked.fresh fun v => return v.descend? site.rest := rfl
    simp only [hd, Request.follow, Task.runs_bind_iff] at hplan
    obtain ⟨q, s, w, he, hplan⟩ := hplan
    cases Request.runs_evaluate hn he with
    | kept hl' =>
      rw [hl, Option.some.injEq] at hl'
      subst hl'
      obtain ⟨rfl, -, -⟩ := Task.runs_pure_iff.1 hplan
      rfl
    | cycle hu => simp [hfresh, hl] at hu
    | tooDeep hu => simp [hfresh, hl] at hu
    | computed hu => simp [hfresh, hl] at hu

end Tree

end LiveDoc
