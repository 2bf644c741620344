import LiveDoc.Proofs.CallContexts
import LiveDoc.Proofs.Moments

/-! # Only clean results are kept

Whatever a hook puts in the place of failures, no trace of it is kept: an evaluation that keeps its
result has told the hook of nothing from its beginning to its end, so it has come to what it would
have come to without a hook.
-/

namespace LiveDoc

variable {σ α : Type}

/-! ## Clean caches -/

namespace Cache

/-- What is kept and fresh has an account of an expression that can be located. -/
structure Clean (S : Setting) (c : Cache) : Prop where
  timely : c.Timely
  accounted : ∀ key entry, c.lookup key = some entry → ∃ site n a, S.Locates site ∧
    Request.keyOf site = key ∧ S.account n site = some a ∧ a.result = entry.value

variable {S : Setting} {c c' : Cache}

theorem clean_empty (S : Setting) : Clean S .empty :=
  ⟨timely_empty, nofun⟩

theorem Clean.begin (h : c.Clean S) : c.begin.Clean S :=
  ⟨h.timely.begin, h.accounted⟩

theorem Clean.faithful (hS : S.Coherent) (h : c.Clean S) : c.Faithful S False where
  timely := h.timely
  sound key entry hl site hs hk := by
    obtain ⟨site', n, a, hs', hk', ha, hv⟩ := h.accounted key entry hl
    have hsame := hS site site' hs hs' (congrArg CacheKey.path (hk.trans hk'.symm))
    exact ⟨n, a, by rw [S.account_congr hsame, ha], hv, False.elim⟩

theorem Clean.grows (h : c.Clean S) (hg : c.Grows S False c') : c'.Clean S where
  timely := hg.timely h.timely
  accounted key entry hl := by
    rcases hg.added key entry hl with hl | ⟨site, n, a, hs, hk, ha, hv, -⟩
    · exact h.accounted key entry hl
    · exact ⟨site, n, a, hs, hk, ha, hv⟩

end Cache

namespace Plan

variable {S : Setting}

theorem evaluates_slots (fresh : Bool) (levels : Nat) (slots : List (String × Path)) :
    (gather (slotPart fresh levels) slots).Evaluates S S.Locates := by
  refine evaluates_gather (fun slot => ?_) slots
  have hslot := evaluates_find (evaluates_descend (S := S) fresh levels slot.2)
  exact evaluates_bind hslot fun v => evaluates_pure _

theorem evaluates_items (fresh : Bool) (levels : Nat) (items : List Path) :
    (gather (itemPart fresh levels) items).Evaluates S S.Locates := by
  refine evaluates_gather (fun path => ?_) items
  have hitem := evaluates_find (evaluates_descend (S := S) fresh levels path)
  exact evaluates_bind hitem fun v => evaluates_pure _

end Plan

namespace Request

variable {request : Request σ} {f : String → List Value → Except String Value} {S : Setting}
  {stack stack' : Stack} {w v w' : World σ}

/-! ## Runs with a hook, and accounts -/

/-- A run adds only results that have an account, and comes to what its own account says if the hook
was told of nothing. -/
structure Honest (S : Setting) (accounts : Nat → Option (Account α)) (w : World σ)
    (r : Except Fault α) (w' : World σ) : Prop where
  grows : w.cache.Grows S False w'.cache
  ok : w'.reports = w.reports → ∀ v, r = .ok v → ∃ n a, accounts n = some a ∧ a.result = v

theorem setting_steady {r : Except Fault α} (h : request.Steady stack w r stack' w')
    (hw : request.setting f w = S) : request.setting f w' = S := by
  rw [← hw, setting, setting, h.document, h.context]

/-- Every evaluation of a located expression is honest. -/
def Honestly (request : Request σ) (f : String → List Value → Except String Value) (S : Setting)
    (evaluate : Evaluator σ) : Prop :=
  ∀ site fresh stack w r stack' w', request.setting f w = S → S.Locates site →
    w.cache.Clean S → (evaluate site fresh).Runs stack w r stack' w' →
    Honest S (fun n => S.account n site) w r w'

theorem follow_honest (hc : request.options.Computes f) {evaluate : Evaluator σ}
    (hst : request.Steadily evaluate) (hev : request.Honestly f S evaluate) {p : Plan α}
    (hpe : p.Evaluates S S.Locates) {r : Except Fault α} (hw : request.setting f w = S)
    (hcl : w.cache.Clean S) (h : (request.follow evaluate p).Runs stack w r stack' w') :
    Honest S (fun n => p.account S (S.account n)) w r w' := by
  induction p generalizing stack w with
  | done result =>
    obtain ⟨rfl, rfl, rfl⟩ := Task.runs_pure_iff.1 h
    refine ⟨.refl _, fun _ v hv => ⟨0, ⟨v, [], []⟩, ?_, rfl⟩⟩
    rw [hv]
    rfl
  | find path next ih =>
    have h := runs_follow_find h
    have hfound : request.foundAt w path = S.find path := by rw [← hw]; rfl
    rw [hfound] at h
    have hnext := ih _ hpe hw hcl h
    refine ⟨hnext.grows, fun hr v hv => ?_⟩
    obtain ⟨n, a, ha, rfl⟩ := hnext.ok hr v hv
    exact ⟨n, _, Plan.account_find.2 ⟨a, ha, rfl⟩, rfl⟩
  | evaluate site fresh next ih =>
    rcases runs_follow_evaluate h with ⟨fault, rfl, hsite⟩ | ⟨value, s, v, hsite, h⟩
    · exact ⟨(hev site fresh _ _ _ _ _ hw hpe.1 hcl hsite).grows, nofun⟩
    · have hfirst := hev site fresh _ _ _ _ _ hw hpe.1 hcl hsite
      have hfirst' := hst site fresh _ _ _ _ _ hsite
      have hnext := ih value (hpe.2 value) (setting_steady hfirst' hw) (hcl.grows hfirst.grows) h
      have hnext' := follow_steady hst h
      refine ⟨hfirst.grows.trans hnext.grows, fun hr b hb => ?_⟩
      have hv : v.reports = w.reports := silent_of_prefix hfirst'.reports hnext'.reports hr
      obtain ⟨m, u, hu, rfl⟩ := hfirst.ok hv value rfl
      obtain ⟨n, a, ha, rfl⟩ := hnext.ok (hr.trans hv.symm) b hb
      have hn (site : Site) (v : Account Value) :
          S.account n site = some v → S.account (max m n) site = some v :=
        S.account_le (Nat.le_max_right m n)
      exact ⟨max m n, _, Plan.account_evaluate.2
        ⟨u, S.account_le (Nat.le_max_left m n) hu, a, Plan.account_mono hn ha, rfl⟩, rfl⟩
  | call name args next ih =>
    have hout : request.outcome f name args = S.call name args := by rw [← hw]; rfl
    rcases runs_follow_call h with ⟨fault, rfl, hcall⟩ | ⟨value, s, v, hcall, h⟩
    · obtain ⟨-, -, host, rfl⟩ := runs_call_of_computes hc hcall
      exact ⟨.refl _, nofun⟩
    · obtain ⟨hvalue, -, host, rfl⟩ := runs_call_of_computes hc hcall
      have hnext := ih value (hpe value) (w := { w with host := host }) hw hcl h
      refine ⟨hnext.grows, fun hr b hb => ?_⟩
      obtain ⟨n, a, ha, rfl⟩ := hnext.ok hr b hb
      exact ⟨n, a, Plan.account_call.2 ⟨value, (hvalue.trans hout).symm, ha⟩, rfl⟩

/-- The template of an expression comes to a value that may be kept. -/
def Keeps (request : Request σ) (evaluate : Evaluator σ) (site : Site) (stack : Stack) (w : World σ)
    (value : Value) (v : World σ) : Prop :=
  ∃ frame rest, (request.follow evaluate (Plan.render site)).Runs (.enter site.path :: stack)
    { w with cache := w.cache.begin } (.ok value) (frame :: rest) v ∧ frame.keepable = true

theorem store_keeps {evaluate : Evaluator σ} (hst : request.Steadily evaluate) {site : Site}
    {r : Except Fault Value} {s : Stack}
    (hrun : (request.follow evaluate (Plan.render site)).Runs (.enter site.path :: stack)
      { w with cache := w.cache.begin } r s v) (epoch : Nat) (c : Cache) :
    store site epoch r s c = c ∨ ∃ value reads, r = .ok value ∧
      request.Keeps evaluate site stack w value v ∧
      store site epoch r s c = c.insert (keyOf site) ⟨value, epoch, reads⟩ := by
  obtain ⟨frame, rest, rfl, -⟩ := (follow_steady hst hrun).top
  cases r with
  | error fault => exact .inl rfl
  | ok value =>
    cases hk : frame.keepable with
    | true => exact .inr ⟨value, frame.reads, rfl, ⟨frame, rest, hrun, hk⟩, if_pos hk⟩
    | false => exact .inl (if_neg (by simp [hk]))

/-- Who keeps a result has told the hook of nothing meanwhile. -/
theorem Keeps.silent {evaluate : Evaluator σ} (hst : request.Steadily evaluate) {site : Site}
    {value : Value} (h : request.Keeps evaluate site stack w value v) : v.reports = w.reports := by
  obtain ⟨frame, rest, hrun, hk⟩ := h
  by_contra hr
  have htold := (follow_steady hst hrun).told hr ⟨value, rfl⟩
  rw [htold frame List.mem_cons_self] at hk
  cases hk

section Evaluations

variable (hc : request.options.Computes f) {evaluate : Evaluator σ}
  (hst : request.Steadily evaluate) (hev : request.Honestly f S evaluate) {site : Site}
  (hw : request.setting f w = S) (hcl : w.cache.Clean S)

include hc hst hev hw hcl in
theorem render_honest {r : Except Fault Value} {s : Stack}
    (hrun : (request.follow evaluate (Plan.render site)).Runs (.enter site.path :: stack)
      { w with cache := w.cache.begin } r s v) :
    w.cache.begin.Grows S False v.cache ∧ (v.reports = w.reports → ∀ value, r = .ok value →
      ∃ n a, S.account n site = some a ∧ a.result = value) := by
  have h := follow_honest hc hst hev (Plan.evaluates_render site)
    (w := { w with cache := w.cache.begin }) hw hcl.begin hrun
  refine ⟨h.grows, fun hr value hv => ?_⟩
  obtain ⟨n, b, hb, rfl⟩ := h.ok hr value hv
  exact ⟨n + 1, _, Setting.account_succ.2 ⟨b, hb, rfl⟩, rfl⟩

include hc hst hev hw hcl in
/-- What is kept has an account. -/
theorem Keeps.account {value : Value} (h : request.Keeps evaluate site stack w value v) :
    ∃ n a, S.account n site = some a ∧ a.result = value := by
  have hsilent := h.silent hst
  obtain ⟨frame, rest, hrun, -⟩ := h
  exact (render_honest hc hst hev hw hcl hrun).2 hsilent value rfl

include hc hst hev hw hcl in
theorem compute_honest (hs : S.Locates site) {r : Except Fault Value}
    (h : (request.compute evaluate site).Runs stack w r stack' w') :
    Honest S (fun n => S.account n site) w r w' := by
  obtain ⟨s, v, hrun, -, rfl⟩ := runs_compute h
  obtain ⟨hgrows, hok⟩ := render_honest hc hst hev hw hcl hrun
  have hfinished : w.cache.Grows S False (v.cache.finish w.cache.epoch) := hgrows.of_begin
  refine ⟨?_, hok⟩
  rcases store_keeps hst hrun w.cache.epoch (v.cache.finish w.cache.epoch) with
    hstore | ⟨value, reads, -, hkeeps, hstore⟩
  · rw [hstore]
    exact hfinished
  · obtain ⟨n, a, ha, hv⟩ := hkeeps.account hc hst hev hw hcl
    have htimely := hfinished.timely hcl.timely
    rw [hstore]
    exact hfinished.trans (.insert htimely hs ha hv hfinished.epoch.symm False.elim)

end Evaluations

theorem Recovered.honest {accounts : Nat → Option (Account Value)} {error : EvalError} {path : Path}
    {r : Except Fault Value} (h : Recovered request error path stack w r stack' w') :
    Honest S accounts w r w' := by
  constructor
  · rw [h.cache_eq]
    exact .refl _
  · rintro hr value rfl
    exact absurd hr h.not_ok

theorem evaluated_honest (hS : S.Coherent) (hc : request.options.Computes f) {left : Nat}
    (hev : ∀ left', left = left' + 1 → request.Honestly f S (request.evaluate left')) :
    request.Honestly f S (request.evaluate left) := by
  intro site fresh stack w r stack' w' hw hs hcl h
  cases runs_evaluate_cases h with
  | @kept entry known _ =>
    obtain ⟨n, a, ha, hv, -⟩ := (hcl.faithful hS).sound _ entry known site hs rfl
    refine ⟨.refl _, ?_⟩
    rintro - _ ⟨⟩
    exact ⟨n, a, ha, hv⟩
  | cycle _ _ recovered | tooDeep _ _ _ recovered => exact recovered.honest
  | computed _ _ remaining run _ =>
    exact compute_honest hc (request.evaluate_steady _) (hev _ remaining) hw hcl hs run
  | @failed _ _ left' remaining error s v run r _ _ recovered =>
    have hrun := compute_honest hc (request.evaluate_steady _) (hev _ remaining) hw hcl hs run
    have hsteady := compute_steady (request.evaluate_steady left') run
    constructor
    · rw [recovered.cache_eq]
      exact hrun.grows
    · rintro hr value rfl
      have hv := silent_of_prefix hsteady.reports recovered.steady.reports hr
      exact absurd (hr.trans hv.symm) recovered.not_ok

theorem evaluate_honest (hS : S.Coherent) (hc : request.options.Computes f) (left : Nat) :
    request.Honestly f S (request.evaluate left) := by
  induction left using of_remaining with
  | step left ih => exact evaluated_honest hS hc ih

/-- What is followed from a clean cache leaves it clean, and what it is answered with as it is. -/
theorem follow_clean (hS : S.Coherent) (hc : request.options.Computes f) {left : Nat} {p : Plan α}
    (hpe : p.Evaluates S S.Locates) {r : Except Fault α} (hw : request.setting f w = S)
    (hcl : w.cache.Clean S) (h : (request.follow (request.evaluate left) p).Runs stack w r stack' w') :
    request.setting f w' = S ∧ w'.cache.Clean S := by
  have hst := request.evaluate_steady left
  have hhonest := follow_honest hc hst (evaluate_honest hS hc left) hpe hw hcl h
  exact ⟨setting_steady (follow_steady hst h) hw, hcl.grows hhonest.grows⟩

/-! ## Clean moments -/

/-- What lies before an errand is answered as the setting says, the cache is clean, and an expression
to be evaluated can be located. -/
structure CleanAt (request : Request σ) (f : String → List Value → Except String Value) (S : Setting)
    (m : Moment σ) : Prop where
  setting : request.setting f m.world = S
  cache : m.world.cache.Clean S
  located : ∀ site fresh, m.errand = .evaluate site fresh → S.Locates site

theorem CleanAt.calls (hS : S.Coherent) (hc : request.options.Computes f) {m m' : Moment σ}
    (h : request.CleanAt f S m) (hcalls : request.Calls m m') : request.CleanAt f S m' := by
  have hfound {w : World σ} {path : Path} {site : Site} (hw : request.setting f w = S)
      (found : request.foundAt w path = .expression site) : S.Locates site :=
    ⟨path, by rw [← hw]; exact found⟩
  obtain ⟨hw, hcl, hlocated⟩ := h
  cases hcalls with
  | slot _ _ run =>
    obtain ⟨hw', hcl'⟩ := follow_clean hS hc (Plan.evaluates_slots _ _ _) hw hcl run
    exact ⟨hw', hcl', nofun⟩
  | item _ _ run =>
    obtain ⟨hw', hcl'⟩ := follow_clean hS hc (Plan.evaluates_items _ _ _) hw hcl run
    exact ⟨hw', hcl', nofun⟩
  | met found | measure found =>
    refine ⟨hw, hcl, ?_⟩
    rintro site fresh ⟨⟩
    exact hfound hw found
  | enter => exact ⟨hw, hcl.begin, nofun⟩
  | ask => exact ⟨hw, hcl, nofun⟩
  | asked run =>
    obtain ⟨hw', hcl'⟩ := follow_clean hS hc (Plan.evaluates_resolve _ _) hw hcl run
    exact ⟨hw', hcl', nofun⟩
  | measured run =>
    obtain ⟨hw', hcl'⟩ := follow_clean hS hc (Plan.evaluates_measure _) hw hcl run
    exact ⟨hw', hcl', nofun⟩
  | called run =>
    obtain ⟨-, host, rfl⟩ := runs_call_frame run
    exact ⟨hw, hcl, nofun⟩

theorem CleanAt.reaches (hS : S.Coherent) (hc : request.options.Computes f) {m m' : Moment σ}
    (h : request.CleanAt f S m) (hr : request.Reaches m m') : request.CleanAt f S m' := by
  induction hr with
  | refl => exact h
  | tail _ hcalls ih => exact ih.calls hS hc hcalls

end Request

/-! ## Runs of reads -/

namespace Options

/-- The options without their hook. -/
def unheard (options : Options σ) : Options σ :=
  { options with onError := none }

end Options

namespace Tree

variable (document : Value) (options : Options σ)

/-- New trees without a hook give the value at a place if evaluations may nest deep enough. -/
def GivesUnheard (place : Path) (value : Value) : Prop :=
  ∃ enough, ∀ depth host, enough ≤ depth →
    (∃ t', (upTo document options.unheard host depth).Gives place "" .default (.ok (some value)) t') ∧
    ∀ r t', (upTo document options.unheard host depth).Gives place "" .default r t' →
      r = .ok (some value)

/-- Whatever is kept is kept for an expression, and is what the expression comes to without a hook. -/
def KeepsUnheard (c : Cache) : Prop :=
  ∀ key entry, c.lookup key = some entry →
    (∃ path site, locate document path (options.context.merge .empty) = .expression site ∧
      Request.keyOf site = key) ∧
    GivesUnheard document options key.path entry.value

/-- An evaluation that is begun stores nothing in the end, or it has told the hook of nothing and
stores what its expression comes to without one. -/
def StoresUnheard (request : Request σ) (left : Nat) (site : Site) (stack : Stack) (w : World σ) :
    Prop :=
  ∀ r s v, (request.follow (request.evaluate left) (Plan.render site)).Runs
    (.enter site.path :: stack) { w with cache := w.cache.begin } r s v → ∀ epoch c,
      Request.store site epoch r s c = c ∨ ∃ value reads, r = .ok value ∧ v.reports = w.reports ∧
        GivesUnheard document options site.path value ∧
        Request.store site epoch r s c = c.insert (Request.keyOf site) ⟨value, epoch, reads⟩

variable {document options} {host : σ} {depth : Nat} {t t' : Tree σ}
  {f : String → List Value → Except String Value} {asked : ReadOptions}

/-- What an account says is given without a hook. -/
theorem givesUnheard_of_account (hc : options.Computes f) (ha : options.Answers) {site : Site}
    (hs : (newSetting document options host f .empty).Locates site) {n : Nat} {a : Account Value}
    (hacc : (newSetting document options host f .empty).account n site = some a) :
    GivesUnheard document options site.path a.result := by
  have hp : options.unheard.Pure f := ⟨rfl, hc⟩
  refine ⟨n, fun depth host' hn => ?_⟩
  have hs' : (newSetting document options.unheard host' f .empty).Locates site := hs
  have hb : account? (newSetting document options.unheard host' f .empty) n site.path "" .default =
      some ⟨some a.result, walkReads site.path ++ a.reads, a.uses⟩ :=
    (account?_site hs').2 ⟨a, hacc, rfl⟩
  have hgiven (r : ReadResult) (t' : Tree σ)
      (hg : (upTo document options.unheard host' depth).Gives site.path "" .default r t') :
      r = .ok (some a.result) :=
    (upTo_answered hp False hg).of_account hb hn
  obtain ⟨r, t', hg⟩ :=
    exists_gives (t := upTo document options.unheard host' depth) ha rfl site.path "" .default
  obtain rfl := hgiven r t' hg
  exact ⟨⟨t', hg⟩, hgiven⟩

theorem keepsUnheard_of_clean (hc : options.Computes f) (ha : options.Answers) {c : Cache}
    (h : c.Clean (newSetting document options host f .empty)) :
    KeepsUnheard document options c := by
  intro key entry hl
  obtain ⟨site, n, a, hs, rfl, hacc, hv⟩ := h.accounted key entry hl
  obtain ⟨path, hlocated⟩ := newSetting_locates.1 hs
  refine ⟨⟨path, site, hlocated, rfl⟩, ?_⟩
  rw [← hv]
  exact givesUnheard_of_account hc ha hs hacc

/-- A tree on which nothing but reads without a context of the call took place. -/
structure Cleaned (document : Value) (options : Options σ) (host : σ) (depth : Nat)
    (f : String → List Value → Except String Value) (t : Tree σ) : Prop where
  idle : t.inflight = []
  options_eq : t.options = { options with maxDepth := depth }
  document_eq : t.document = document
  context_eq : t.context = options.context
  clean : t.world.cache.Clean (newSetting document options host f .empty)

namespace Cleaned

variable (h : Cleaned document options host depth f t)

include h in
theorem setting (plain : asked.own = .empty) :
    (t.request asked).setting f t.world = newSetting document options host f .empty := by
  have hr : t.options.registry = options.registry := by rw [h.options_eq]
  rw [← plain]
  exact setting_congr hr h.document_eq h.context_eq asked.own

include h in
theorem computes (hc : options.Computes f) : t.options.Computes f := by
  rw [h.options_eq]
  exact hc

include h in
theorem serves (hc : options.Computes f) (hs : Serves (· = .empty) t t') :
    Cleaned document options host depth f t' := by
  cases hs with
  | @read base text asked r plain gives =>
    rcases gives.cases h.idle with ⟨e, -, -, rfl⟩ | ⟨path, -, hread, hidle, hoptions⟩
    · exact h
    · obtain ⟨result, stack, hrun, -⟩ := Request.ends_read hread
      have hS := setting_coherent (upTo document options host 0) f .empty
      have hsteady := Request.follow_steady ((t.request asked).evaluate_steady _) hrun
      obtain ⟨-, hclean⟩ := Request.follow_clean hS (h.computes hc)
        (Plan.evaluates_resolve asked.fresh path) (h.setting plain) h.clean hrun
      exact ⟨hidle, hoptions.trans h.options_eq, hsteady.document.trans h.document_eq,
        hsteady.context.trans h.context_eq, hclean⟩

end Cleaned

theorem cleaned_of_served (hc : options.Computes f)
    (h : Served document options host (· = .empty) depth t) :
    Cleaned document options host depth f t := by
  induction h with
  | refl => exact ⟨rfl, rfl, rfl, rfl, Cache.clean_empty _⟩
  | tail _ hs ih => exact ih.serves hc hs

/-- With resolvers that compute, whatever the hook decides: after any reads without contexts of
their own, and at every moment of a further one, what is kept for an expression is what a new tree
without a hook gives for it. An evaluation meanwhile stores only what it has come to without a word
to the hook, so neither a value that stands in for a failure nor one that comes of it is stored. -/
theorem kept_results_clean (hc : options.Computes f) (ha : options.Answers)
    (hs : Served document options host (· = .empty) depth t) :
    KeepsUnheard document options t.world.cache ∧
    ∀ base text asked path, asked.own = .empty → Path.resolve base text = .ok path →
      ∀ m, (t.request asked).Reaches ((t.request asked).opening path asked.fresh t.world) m →
        KeepsUnheard document options m.world.cache ∧
        ∀ site fresh left, m.errand = .evaluate site fresh → m.left = left + 1 →
          StoresUnheard document options (t.request asked) left site m.stack m.world := by
  have hcleaned := cleaned_of_served hc hs
  have hct := hcleaned.computes hc
  refine ⟨keepsUnheard_of_clean hc ha hcleaned.clean, ?_⟩
  intro base text asked path plain _ m hm
  have hS := setting_coherent (upTo document options host 0) f .empty
  have hopening : (t.request asked).CleanAt f (newSetting document options host f .empty)
      ((t.request asked).opening path asked.fresh t.world) :=
    ⟨hcleaned.setting plain, hcleaned.clean, nofun⟩
  have hclean := hopening.reaches hS hct hm
  refine ⟨keepsUnheard_of_clean hc ha hclean.cache, ?_⟩
  intro site fresh left herrand _ r s v hrun epoch c
  have hst := (t.request asked).evaluate_steady left
  rcases Request.store_keeps hst hrun epoch c with hnone | ⟨value, reads, hr, hkeeps, hstore⟩
  · exact .inl hnone
  · obtain ⟨n, a, hacc, rfl⟩ := hkeeps.account hct hst (Request.evaluate_honest hS hct left)
      hclean.setting hclean.cache
    exact .inr ⟨a.result, reads, hr, hkeeps.silent hst,
      givesUnheard_of_account hc ha (hclean.located site fresh herrand) hacc, hstore⟩

/-- An expression that waits for itself, one that quotes it, a sum, and a list of these two. -/
def withGap : Value :=
  .obj [(".a", .str "${a}"), (".b", .str "${a}"), (".c", .str "${1 + 1}"), (".d", .str "${[c, b]}")]

/-- A zero stands in for every failure. -/
def patching : Options Unit :=
  { (Options.default : Options Unit) with onError := some fun _ _ => .substitute (.num (.int 0)) }

def gapRead : Tree Unit × Option ReadResult :=
  (ofDocument withGap patching ()).get .root "d" .default

def atRoot (name : String) : CacheKey :=
  ⟨⟨[name]⟩, Context.fingerprint .empty⟩

/-- Of what the list was put together, only the sum is kept. -/
theorem gapRead_keeps :
    (gapRead.2, [".a", ".b", ".c", ".d"].map fun name =>
      (gapRead.1.world.cache.lookup (atRoot name)).map (·.value)) =
    (some (.ok (some (.arr [.num (.int 2), .num (.int 0)]))),
      [none, none, some (.num (.int 2)), none]) := by
  cbv

/-- What is kept of the sum is what it comes to without the hook. -/
theorem gapRead_clean : KeepsUnheard withGap patching gapRead.1.world.cache ∧
    GivesUnheard withGap patching ⟨[".c"]⟩ (.num (.int 2)) := by
  obtain ⟨hgives, hkeeps⟩ := Prod.mk.inj gapRead_keeps
  have hserved : Served withGap patching () (· = .empty) 100 gapRead.1 :=
    .single (.read rfl (gives_of_get (Prod.ext rfl hgives)))
  have hcomputes : patching.Computes fun _ _ => .ok .null := fun name r h => by cases h
  have hanswers : patching.Answers := fun name r h => by cases h
  obtain ⟨hclean, -⟩ := kept_results_clean hcomputes hanswers hserved
  simp only [List.map_cons, List.cons.injEq, Option.map_eq_some_iff] at hkeeps
  obtain ⟨-, -, ⟨entry, hl, hvalue⟩, -⟩ := hkeeps
  refine ⟨hclean, ?_⟩
  rw [← hvalue]
  exact (hclean (atRoot ".c") entry hl).2

end Tree

end LiveDoc
