import LiveDoc.Proofs.Reading

/-! # Reads of what is known

A read that asks for nothing anew, and all of whose expressions have kept results that are right,
comes to what its account says, however little nesting is left.
-/

namespace LiveDoc

namespace Plan

variable {α β : Type}

/-- No evaluation is asked to be done anew. -/
def Reuses : Plan α → Prop
  | .done _ => True
  | .find _ next => ∀ found, Reuses (next found)
  | .evaluate _ fresh next => fresh = false ∧ ∀ v, Reuses (next v)
  | .call _ _ next => ∀ v, Reuses (next v)

theorem Reuses.bind {p : Plan α} {f : α → Plan β} (hp : p.Reuses) (hf : ∀ a, (f a).Reuses) :
    (p.bind f).Reuses := by
  induction p with
  | done result =>
    cases result with
    | ok a => exact hf a
    | error fault => exact trivial
  | find path next ih => exact fun found => ih found (hp found)
  | evaluate site fresh next ih => exact ⟨hp.1, fun v => ih v (hp.2 v)⟩
  | call name args next ih => exact fun v => ih v (hp v)

theorem reuses_gather {item : α → Plan β} (h : ∀ a, (item a).Reuses) (as : List α) :
    (gather item as).Reuses := by
  induction as with
  | nil => exact trivial
  | cons a rest ih => exact Reuses.bind (h a) fun b => Reuses.bind ih fun bs => trivial

theorem reuses_descend (levels : Nat) (found : Found) : (descend false levels found).Reuses := by
  induction levels generalizing found with
  | zero =>
    cases found with
    | expression site => exact ⟨rfl, fun v => trivial⟩
    | _ => exact trivial
  | succ levels ih =>
    have hpart (path : Path) : (Plan.find path (descend false levels)).Reuses := ih
    cases found with
    | expression site => exact ⟨rfl, fun v => trivial⟩
    | mapping slots =>
      refine Reuses.bind (reuses_gather ?_ slots) fun members => trivial
      rintro ⟨name, path⟩
      exact Reuses.bind (hpart path) fun v => trivial
    | list items =>
      refine Reuses.bind (reuses_gather (fun path => ?_) items) fun values => trivial
      exact Reuses.bind (hpart path) fun v => trivial
    | _ => exact trivial

theorem reuses_resolve (path : Path) : (resolve false path).Reuses :=
  fun found => reuses_descend found.levels found

end Plan

variable {σ α : Type} {f : String → List Value → Except String Value} {S : Setting} {traced : Prop}

/-- A plan that only needs what is known is carried out without evaluating anything. -/
theorem Request.follow_known {request : Request σ} (hp : request.options.Pure f) {p : Plan α}
    (hr : p.Reuses) (hpe : p.Evaluates S S.Locates) {left n : Nat} {a : Account α}
    (ha : p.account S (S.account n) = some a) {w w' : World σ} (hw : request.setting f w = S)
    (hf : w.cache.Faithful S traced) (hk : ∀ key ∈ a.uses, w.cache.Known key)
    {stack stack' : Stack} {r : Except Fault α}
    (h : (request.follow (request.evaluate left) p).Runs stack w r stack' w') :
    r = .ok a.result ∧ ∃ host, w' = { w with host := host } := by
  induction p generalizing stack w a with
  | done result =>
    simp only [follow, Task.runs_pure_iff] at h
    obtain ⟨rfl, rfl, rfl⟩ := h
    cases r with
    | ok v =>
      cases ha
      exact ⟨rfl, w'.host, rfl⟩
    | error fault => cases ha
  | find path next ih =>
    have h := runs_follow_find h
    obtain ⟨b, hb, rfl⟩ := Plan.account_find.1 ha
    have hfound : request.foundAt w path = S.find path := by rw [← hw]; rfl
    rw [hfound] at h
    exact ih _ (hr _) hpe hb hw hf hk h
  | evaluate site fresh next ih =>
    obtain ⟨rfl, hr⟩ := hr
    simp only [follow, Task.runs_bind_iff] at h
    obtain ⟨q, s, v, hsite, h⟩ := h
    obtain ⟨u, hu, b, hb, rfl⟩ := Plan.account_evaluate.1 ha
    obtain ⟨entry, hl⟩ := Option.isSome_iff_exists.1
      (hk _ (List.mem_append_left _ (Setting.key_mem_uses hu)))
    obtain ⟨m, u', hu', hv, -⟩ := hf.sound _ entry hl site hpe.1 rfl
    obtain rfl := S.account_unique hu hu'
    cases runs_evaluate hp.onError hsite with
    | kept hl' =>
      obtain rfl := Option.some.inj (hl.symm.trans hl')
      rw [← hv] at h
      exact ih _ (hr _) (hpe.2 _) hb hw hf (fun key hkey => hk key (List.mem_append_right _ hkey)) h
    | cycle unknown => simp [hl] at unknown
    | tooDeep unknown => simp [hl] at unknown
    | computed unknown => simp [hl] at unknown
  | call name args next ih =>
    simp only [follow, Task.runs_bind_iff] at h
    obtain ⟨q, s, v, hcall, h⟩ := h
    obtain ⟨rfl, rfl, host, rfl⟩ := runs_call hp hcall
    obtain ⟨u, hu, hb⟩ := Plan.account_call.1 ha
    have hout : request.outcome f name args = S.call name args := by rw [← hw]; rfl
    simp only [hout, hu] at h
    exact ih u (hr u) (hpe u) hb (w := { w with host := host }) hw hf hk h

/-- A read of what is known gives what its account says. -/
theorem Tree.Gives.of_known {t t' : Tree σ} {base : Path} {text : String} {asked : ReadOptions}
    {r : ReadResult} (hp : t.options.Pure f) (hi : t.inflight = [])
    (hf : t.world.cache.Faithful (t.setting f asked.own) traced) (hfresh : asked.fresh = false)
    {n : Nat} {a : Account (Option Value)}
    (ha : account? (t.setting f asked.own) n base text asked = some a)
    (hk : ∀ key ∈ a.uses, t.world.cache.Known key) (hg : t.Gives base text asked r t') :
    r = .ok (a.result.or asked.fallback) := by
  rcases hg.cases hi with ⟨e, he, -⟩ | ⟨path, hpath, hrun, -⟩
  · simp [account?, he] at ha
  · obtain ⟨result, stack, hplan, rfl⟩ := Request.ends_read hrun
    simp only [account?, hpath, hfresh] at ha
    rw [hfresh] at hplan
    have hw : (t.request asked).setting f t.world = t.setting f asked.own := rfl
    obtain ⟨rfl, -⟩ := Request.follow_known hp (Plan.reuses_resolve path)
      (Plan.evaluates_resolve false path) ha hw hf hk hplan
    rfl

end LiveDoc
