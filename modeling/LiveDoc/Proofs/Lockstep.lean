import LiveDoc.Proofs.Accounted
import LiveDoc.Proofs.ComposedTasks

/-! # Two reads side by side

The same read in two worlds with one document goes the same way in both, but for what is kept: one
may find a result where the other has to evaluate. The results are the same unless evaluations nest
too deep; and if all that the first world knows is known to the second, only in the first.
-/

namespace LiveDoc

/-- An expression under evaluation has an account only if what it now waits for has one that nests
less. -/
def Setting.Awaits {α : Type} (S : Setting) (stack : Stack)
    (accounts : Nat → Option (Account α)) : Prop :=
  ∀ frame ∈ stack, ∀ site, S.Locates site → site.path = frame.path →
    ∀ n a, S.account (n + 1) site = some a → ∃ b, accounts n = some b

namespace Setting.Awaits

variable {α β : Type} {S : Setting} {stack stack' : Stack} {accounts : Nat → Option (Account α)}
  {accounts' : Nat → Option (Account β)}

theorem mono (h : S.Awaits stack accounts)
    (hacc : ∀ n a, accounts n = some a → ∃ b, accounts' n = some b) : S.Awaits stack accounts' := by
  intro frame hf site hs hp n a ha
  obtain ⟨b, hb⟩ := h frame hf site hs hp n a ha
  exact hacc n b hb

theorem of_paths (h : S.Awaits stack accounts)
    (hp : stack'.map (·.path) = stack.map (·.path)) : S.Awaits stack' accounts := by
  intro frame hf site hs hpath
  obtain ⟨frame', hf', he⟩ := Stack.exists_of_paths hp hf
  exact h frame' hf' site hs (hpath.trans he.symm)

/-- Nothing under evaluation nests less than what it waits for. -/
theorem clear {site : Site} {n : Nat} {a : Account Value}
    (h : S.Awaits stack fun n => S.account n site) (ha : S.account n site = some a) :
    ∃ m, S.account m site = some a ∧ S.Clear m stack := by
  obtain ⟨k, -, ha, hk⟩ := S.account_least ha
  refine ⟨k + 1, ha, fun frame hf site' hs hp => ?_⟩
  cases hn : S.account (k + 1) site' with
  | none => rfl
  | some b =>
    obtain ⟨c, hc⟩ := h frame hf site' hs hp k b hn
    have hc : S.account k site = some c := hc
    rw [hk] at hc
    cases hc

/-- A new evaluation waits for its plan, and so do those around it. -/
theorem enter (hS : S.Coherent) {site : Site} (hs : S.Locates site)
    (h : S.Awaits stack fun n => S.account n site) :
    S.Awaits (.enter site.path :: stack) fun n => (Plan.render site).account S (S.account n) := by
  intro frame hf site' hs' hp n a ha
  rcases List.mem_cons.1 hf with rfl | hf
  · rw [S.account_congr (hS site' site hs' hs hp)] at ha
    obtain ⟨b, hb, -⟩ := Setting.account_succ.1 ha
    exact ⟨b, hb⟩
  · obtain ⟨c, hc⟩ := h frame hf site' hs' hp n a ha
    cases n with
    | zero => cases hc
    | succ n =>
      obtain ⟨b, hb, -⟩ := Setting.account_succ.1 hc
      exact ⟨b, Plan.account_mono (fun _ _ => S.account_le (Nat.le_succ n)) hb⟩

end Setting.Awaits

/-- Two results agree unless evaluations nest too deep; reads that are traced nest no deeper in the
second. -/
def Agree {α : Type} (traced : Prop) (r₁ r₂ : Except Fault α) : Prop :=
  IsTooDeep r₁ ∨ (¬ traced ∧ IsTooDeep r₂) ∨ r₁ = r₂

namespace Request

variable {σ α : Type} {request₁ request₂ : Request σ}
  {f : String → List Value → Except String Value} {S : Setting} {traced : Prop}

/-- Two reads have come to the same point, and the second knows what the first knows. -/
structure Beside (request₁ request₂ : Request σ) (f : String → List Value → Except String Value)
    (S : Setting) (traced : Prop) (stack₁ stack₂ : Stack) (w₁ w₂ : World σ) : Prop where
  setting₁ : request₁.setting f w₁ = S
  setting₂ : request₂.setting f w₂ = S
  faithful₁ : w₁.cache.Faithful S traced
  faithful₂ : w₂.cache.Faithful S traced
  known : traced → ∀ key, w₁.cache.Known key → w₂.cache.Known key
  paths : stack₂.map (·.path) = stack₁.map (·.path)

section Beside

variable {stack₁ stack₂ stack₁' stack₂' : Stack} {w₁ w₂ w₁' w₂' : World σ}

theorem Beside.record (h : Beside request₁ request₂ f S traced stack₁ stack₂ w₁ w₂)
    (slots : List Path) :
    Beside request₁ request₂ f S traced (stack₁.record slots) (stack₂.record slots) w₁ w₂ :=
  { h with
    paths := by
      rw [(Stack.grown_record stack₁ slots).map_path, (Stack.grown_record stack₂ slots).map_path,
        h.paths] }

theorem Beside.found (h : Beside request₁ request₂ f S traced stack₁ stack₂ w₁ w₂) (path : Path) :
    Found.ofLocated (locate w₁.document path (w₁.context.merge request₁.context)) = S.find path ∧
      Found.ofLocated (locate w₂.document path (w₂.context.merge request₂.context)) =
        S.find path := by
  constructor
  · rw [← h.setting₁]
    rfl
  · rw [← h.setting₂]
    rfl

theorem Beside.outcome (h : Beside request₁ request₂ f S traced stack₁ stack₂ w₁ w₂)
    (name : String) (args : List Value) :
    request₁.outcome f name args = S.call name args ∧
      request₂.outcome f name args = S.call name args := by
  constructor
  · rw [← h.setting₁]
    rfl
  · rw [← h.setting₂]
    rfl

/-- After the same evaluation has gone well in both, the reads are side by side again. -/
theorem Beside.evaluated (hS : S.Coherent)
    (h : Beside request₁ request₂ f S traced stack₁ stack₂ w₁ w₂) {left : Nat} {site : Site}
    {value : Value}
    (h₁ : Accounted S traced (fun n => S.account n site) left stack₁ w₁ (.ok value) stack₁' w₁')
    (h₂ : Accounted S traced (fun n => S.account n site) left stack₂ w₂ (.ok value) stack₂' w₂') :
    Beside request₁ request₂ f S traced stack₁' stack₂' w₁' w₂' := by
  obtain ⟨n₁, u, reads₁, hu, -, hg₁, ht₁⟩ := h₁.ok value rfl
  obtain ⟨n₂, u', reads₂, hu', -, hg₂, ht₂⟩ := h₂.ok value rfl
  obtain rfl := S.account_unique hu hu'
  refine ⟨?_, ?_, h.faithful₁.grows hS h₁.grows, h.faithful₂.grows hS h₂.grows,
    fun htr key hkey => ?_, by rw [hg₁.map_path, hg₂.map_path, h.paths]⟩
  · rw [← h.setting₁, setting, setting, h₁.document, h₁.context]
  · rw [← h.setting₂, setting, setting, h₂.document, h₂.context]
  · rcases (ht₁ htr).2.2 key hkey with hkey | hkey
    · exact h₂.grows.known key (h.known htr key hkey)
    · exact (ht₂ htr).2.1 key hkey

theorem Beside.enter (h : Beside request₁ request₂ f S traced stack₁ stack₂ w₁ w₂)
    (path : Path) : Beside request₁ request₂ f S traced (.enter path :: stack₁)
      (.enter path :: stack₂) { w₁ with cache := w₁.cache.begin }
      { w₂ with cache := w₂.cache.begin } where
  setting₁ := h.setting₁
  setting₂ := h.setting₂
  faithful₁ := ⟨h.faithful₁.timely.begin, h.faithful₁.sound⟩
  faithful₂ := ⟨h.faithful₂.timely.begin, h.faithful₂.sound⟩
  known := h.known
  paths := by rw [List.map_cons, List.map_cons, h.paths]

end Beside

/-- Two ways of evaluating agree where two reads are side by side. -/
def Agrees (request₁ request₂ : Request σ) (f : String → List Value → Except String Value)
    (S : Setting) (traced : Prop) (evaluate₁ evaluate₂ : Evaluator σ) : Prop :=
  ∀ site fresh stack₁ stack₂ w₁ w₂ r₁ r₂ stack₁' stack₂' w₁' w₂',
    Beside request₁ request₂ f S traced stack₁ stack₂ w₁ w₂ → S.Locates site →
    S.Awaits stack₁ (fun n => S.account n site) →
    (evaluate₁ site fresh).Runs stack₁ w₁ r₁ stack₁' w₁' →
    (evaluate₂ site fresh).Runs stack₂ w₂ r₂ stack₂' w₂' → Agree traced r₁ r₂

theorem follow_agrees (hS : S.Coherent) (hp₁ : request₁.options.Pure f)
    (hp₂ : request₂.options.Pure f) {left : Nat} {evaluate₁ evaluate₂ : Evaluator σ}
    (hacc₁ : request₁.Accounts f S traced left evaluate₁)
    (hacc₂ : request₂.Accounts f S traced left evaluate₂)
    (hag : request₁.Agrees request₂ f S traced evaluate₁ evaluate₂) {p : Plan α}
    (hpe : p.Evaluates S S.Locates) {stack₁ stack₂ stack₁' stack₂' : Stack}
    {w₁ w₂ w₁' w₂' : World σ} {r₁ r₂ : Except Fault α}
    (hb : Beside request₁ request₂ f S traced stack₁ stack₂ w₁ w₂)
    (hawait : S.Awaits stack₁ fun n => p.account S (S.account n))
    (h₁ : (request₁.follow evaluate₁ p).Runs stack₁ w₁ r₁ stack₁' w₁')
    (h₂ : (request₂.follow evaluate₂ p).Runs stack₂ w₂ r₂ stack₂' w₂') : Agree traced r₁ r₂ := by
  induction p generalizing stack₁ stack₂ w₁ w₂ with
  | done result =>
    simp only [follow, Task.runs_pure_iff] at h₁ h₂
    exact .inr (.inr (h₁.1.trans h₂.1.symm))
  | find path next ih =>
    simp only [follow, Task.runs_bind_iff] at h₁ h₂
    obtain ⟨found₁, s₁, v₁, hfind₁, h₁⟩ := h₁
    obtain ⟨found₂, s₂, v₂, hfind₂, h₂⟩ := h₂
    obtain ⟨rfl, rfl, rfl⟩ := runs_find hfind₁
    obtain ⟨rfl, rfl, rfl⟩ := runs_find hfind₂
    rw [(hb.found path).1] at h₁
    rw [(hb.found path).2] at h₂
    have hpaths := (Stack.grown_record stack₁ (walkReads path)).map_path
    refine ih _ hpe (hb.record _) ((hawait.of_paths hpaths).mono fun n a ha => ?_) h₁ h₂
    obtain ⟨b, hb, -⟩ := Plan.account_find.1 ha
    exact ⟨b, hb⟩
  | evaluate site fresh next ih =>
    simp only [follow, Task.runs_bind_iff] at h₁ h₂
    obtain ⟨q₁, s₁, v₁, hsite₁, h₁⟩ := h₁
    obtain ⟨q₂, s₂, v₂, hsite₂, h₂⟩ := h₂
    have ha₁ := hacc₁ site fresh _ _ _ _ _ hb.setting₁ hpe.1 hb.faithful₁ hsite₁
    have ha₂ := hacc₂ site fresh _ _ _ _ _ hb.setting₂ hpe.1 hb.faithful₂ hsite₂
    have hsame : Agree traced q₁ q₂ := by
      refine hag site fresh _ _ _ _ _ _ _ _ _ _ hb hpe.1 (hawait.mono fun n a ha => ?_) hsite₁ hsite₂
      obtain ⟨u, hu, -⟩ := Plan.account_evaluate.1 ha
      exact ⟨u, hu⟩
    rcases hsame with ⟨limit, path, rfl⟩ | ⟨htr, limit, path, rfl⟩ | rfl
    · obtain ⟨rfl, -, -⟩ := Task.runs_pure_iff.1 h₁
      exact .inl ⟨limit, path, rfl⟩
    · obtain ⟨rfl, -, -⟩ := Task.runs_pure_iff.1 h₂
      exact .inr (.inl ⟨htr, limit, path, rfl⟩)
    · cases q₁ with
      | error fault =>
        obtain ⟨rfl, -, -⟩ := Task.runs_pure_iff.1 h₁
        obtain ⟨rfl, -, -⟩ := Task.runs_pure_iff.1 h₂
        exact .inr (.inr rfl)
      | ok value =>
        obtain ⟨n, u, reads, hu, rfl, hg, -⟩ := ha₁.ok value rfl
        refine ih u.result (hpe.2 _) (hb.evaluated hS ha₁ ha₂)
          ((hawait.of_paths hg.map_path).mono fun n a ha => ?_) h₁ h₂
        obtain ⟨u', hu', b, hb, -⟩ := Plan.account_evaluate.1 ha
        obtain rfl := S.account_unique hu hu'
        exact ⟨b, hb⟩
  | call name args next ih =>
    simp only [follow, Task.runs_bind_iff] at h₁ h₂
    obtain ⟨q₁, s₁, v₁, hcall₁, h₁⟩ := h₁
    obtain ⟨q₂, s₂, v₂, hcall₂, h₂⟩ := h₂
    obtain ⟨rfl, rfl, host₁, rfl⟩ := runs_call hp₁ hcall₁
    obtain ⟨rfl, rfl, host₂, rfl⟩ := runs_call hp₂ hcall₂
    rw [(hb.outcome name args).1] at h₁
    rw [(hb.outcome name args).2] at h₂
    cases hr : S.call name args with
    | error fault =>
      simp only [hr, Task.runs_pure_iff] at h₁ h₂
      exact .inr (.inr (h₁.1.trans h₂.1.symm))
    | ok value =>
      simp only [hr] at h₁ h₂
      have hb : Beside request₁ request₂ f S traced s₁ s₂ { w₁ with host := host₁ }
          { w₂ with host := host₂ } :=
        ⟨hb.setting₁, hb.setting₂, hb.faithful₁, hb.faithful₂, hb.known, hb.paths⟩
      refine ih value (hpe value) hb (hawait.mono fun n a ha => ?_) h₁ h₂
      obtain ⟨u, hu, hb⟩ := Plan.account_call.1 ha
      obtain rfl : value = u := Except.ok.inj (hr.symm.trans hu)
      exact ⟨a, hb⟩

/-- Adding that a failure was passed on keeps results apart or equal as they are. -/
theorem agree_mapError {r₁ r₂ : Except Fault α} (h : Agree traced r₁ r₂) :
    Agree traced (r₁.mapError fun fault => ⟨fault.error, true⟩)
      (r₂.mapError fun fault => ⟨fault.error, true⟩) := by
  rcases h with ⟨limit, path, rfl⟩ | ⟨htr, limit, path, rfl⟩ | rfl
  · exact .inl ⟨limit, path, rfl⟩
  · exact .inr (.inl ⟨htr, limit, path, rfl⟩)
  · exact .inr (.inr rfl)

theorem compute_agrees (hS : S.Coherent) (hp₁ : request₁.options.Pure f)
    (hp₂ : request₂.options.Pure f) {left : Nat} {evaluate₁ evaluate₂ : Evaluator σ}
    (hacc₁ : request₁.Accounts f S traced left evaluate₁)
    (hacc₂ : request₂.Accounts f S traced left evaluate₂)
    (hag : request₁.Agrees request₂ f S traced evaluate₁ evaluate₂) {site : Site}
    (hs : S.Locates site) {stack₁ stack₂ stack₁' stack₂' : Stack} {w₁ w₂ w₁' w₂' : World σ}
    {r₁ r₂ : Except Fault Value} (hb : Beside request₁ request₂ f S traced stack₁ stack₂ w₁ w₂)
    (hawait : S.Awaits stack₁ fun n => S.account n site)
    (h₁ : (request₁.compute evaluate₁ site).Runs stack₁ w₁ r₁ stack₁' w₁')
    (h₂ : (request₂.compute evaluate₂ site).Runs stack₂ w₂ r₂ stack₂' w₂') :
    Agree traced r₁ r₂ := by
  obtain ⟨s₁, v₁, h₁, -, -⟩ := runs_compute h₁
  obtain ⟨s₂, v₂, h₂, -, -⟩ := runs_compute h₂
  exact follow_agrees hS hp₁ hp₂ hacc₁ hacc₂ hag (Plan.evaluates_render site) (hb.enter site.path)
    (hawait.enter hS hs) h₁ h₂

/-- What one world has kept, the other evaluates to the same result, or it nests too deep. -/
theorem kept_agrees {request : Request σ} {left : Nat} {evaluate : Evaluator σ}
    (hacc : request.Accounts f S traced left evaluate) {c : Cache} (hc : c.Faithful S traced)
    {site : Site} (hs : S.Locates site) {entry : CacheEntry}
    (hl : c.lookup (keyOf site) = some entry) {fresh : Bool} {stack stack' : Stack}
    {w w' : World σ} {r : Except Fault Value} (hw : request.setting f w = S)
    (hf : w.cache.Faithful S traced) (hawait : S.Awaits stack fun n => S.account n site)
    (h : (evaluate site fresh).Runs stack w r stack' w') :
    r = .ok entry.value ∨ IsTooDeep r := by
  obtain ⟨n, a, ha, hv, -⟩ := hc.sound _ entry hl site hs rfl
  obtain ⟨m, hm, hclear⟩ := hawait.clear ha
  have hrun := hacc site fresh stack w r stack' w' hw hs hf h
  rcases hrun.deep m a hm hclear with ⟨v, rfl⟩ | ⟨hd, -⟩
  · obtain ⟨k, b, -, hb, rfl, -⟩ := hrun.ok v rfl
    obtain rfl := S.account_unique ha hb
    rw [hv]
    exact .inl rfl
  · exact .inr hd

theorem kept_agree {c₁ c₂ : Cache} (h₁ : c₁.Faithful S traced) (h₂ : c₂.Faithful S traced)
    {site : Site} (hs : S.Locates site) {entry₁ entry₂ : CacheEntry}
    (hl₁ : c₁.lookup (keyOf site) = some entry₁) (hl₂ : c₂.lookup (keyOf site) = some entry₂) :
    entry₁.value = entry₂.value := by
  obtain ⟨n, a, ha, hv, -⟩ := h₁.sound _ entry₁ hl₁ site hs rfl
  obtain ⟨m, b, hb, hv', -⟩ := h₂.sound _ entry₂ hl₂ site hs rfl
  rw [← hv, ← hv', S.account_unique ha hb]

theorem evaluated_agrees (hS : S.Coherent) (hp₁ : request₁.options.Pure f)
    (hp₂ : request₂.options.Pure f) {left : Nat}
    (hag : ∀ left', left = left' + 1 → request₁.Agrees request₂ f S traced
      (request₁.evaluate left') (request₂.evaluate left')) :
    request₁.Agrees request₂ f S traced (request₁.evaluate left) (request₂.evaluate left) := by
  intro site fresh stack₁ stack₂ w₁ w₂ r₁ r₂ stack₁' stack₂' w₁' w₂' hb hs hawait h₁ h₂
  have hholds := Stack.holds_congr hb.paths site.path
  cases runs_evaluate hp₁.onError h₁ with
  | @kept entry₁ hl₁ hfresh =>
    cases hl₂ : w₂.cache.lookup (keyOf site) with
    | none =>
      refine .inr ?_
      by_cases htr : traced
      · have hk := hb.known htr (keyOf site) (by rw [Cache.Known, hl₁]; rfl)
        rw [Cache.Known, hl₂] at hk
        cases hk
      · rcases kept_agrees (evaluate_accounted hS hp₂ left) hb.faithful₁ hs hl₁ hb.setting₂
          hb.faithful₂ (hawait.of_paths hb.paths) h₂ with rfl | hd
        · exact .inr rfl
        · exact .inl ⟨htr, hd⟩
    | some entry₂ =>
      cases runs_evaluate hp₂.onError h₂ with
      | kept hl₂' =>
        exact .inr (.inr (congrArg _ (kept_agree hb.faithful₁ hb.faithful₂ hs hl₁ hl₂')))
      | cycle hu => simp [hfresh, hl₂] at hu
      | tooDeep hu => simp [hfresh, hl₂] at hu
      | computed hu => simp [hfresh, hl₂] at hu
  | cycle hu₁ hwait =>
    cases runs_evaluate hp₂.onError h₂ with
    | kept hl₂ hfresh =>
      rcases kept_agrees (evaluate_accounted hS hp₁ left) hb.faithful₂ hs hl₂ hb.setting₁
        hb.faithful₁ hawait h₁ with h | h
      · cases h
      · exact .inl h
    | cycle => exact .inr (.inr (by rw [Stack.chainTo_congr hb.paths]))
    | tooDeep _ hfree => rw [hholds, hwait] at hfree; cases hfree
    | computed _ hfree => rw [hholds, hwait] at hfree; cases hfree
  | tooDeep => exact .inl ⟨_, _, rfl⟩
  | @computed _ hfree left' hleft q₁ _ _ hrun₁ =>
    cases runs_evaluate hp₂.onError h₂ with
    | kept hl₂ hfresh =>
      rcases kept_agrees (evaluate_accounted hS hp₁ left) hb.faithful₂ hs hl₂ hb.setting₁
        hb.faithful₁ hawait h₁ with h | h
      · exact .inr (.inr h)
      · exact .inl h
    | cycle _ hwait => rw [hholds, hfree] at hwait; cases hwait
    | tooDeep _ _ hspent => omega
    | @computed _ _ left'' hleft' q₂ _ _ hrun₂ =>
      obtain rfl : left' = left'' := by omega
      exact agree_mapError (compute_agrees hS hp₁ hp₂ (evaluate_accounted hS hp₁ left')
        (evaluate_accounted hS hp₂ left') (hag left' hleft) hs hb hawait hrun₁ hrun₂)

/-- Evaluations of one expression in two worlds agree. -/
theorem evaluate_agrees (hS : S.Coherent) (hp₁ : request₁.options.Pure f)
    (hp₂ : request₂.options.Pure f) (left : Nat) :
    request₁.Agrees request₂ f S traced (request₁.evaluate left) (request₂.evaluate left) := by
  induction left using of_remaining with
  | step left ih => exact evaluated_agrees hS hp₁ hp₂ ih

theorem isTooDeep_conclude {request : Request σ} {r : Except Fault (Option Value)}
    (h : IsTooDeep r) : ReadResult.IsTooDeep (request.conclude r) := by
  obtain ⟨limit, path, rfl⟩ := h
  exact ⟨limit, path, rfl⟩

/-- Whole reads of one path in two worlds agree. -/
theorem read_agrees (hS : S.Coherent) (hp₁ : request₁.options.Pure f)
    (hp₂ : request₂.options.Pure f)
    (hdepth : request₁.options.maxDepth = request₂.options.maxDepth)
    (hfall : request₁.fallback = request₂.fallback) {w₁ w₂ w₁' w₂' : World σ}
    (hb : Beside request₁ request₂ f S traced [] [] w₁ w₂) {path : Path} {fresh : Bool}
    {r₁ r₂ : ReadResult} (h₁ : (request₁.read path fresh w₁).Ends r₁ w₁')
    (h₂ : (request₂.read path fresh w₂).Ends r₂ w₂') :
    ReadResult.IsTooDeep r₁ ∨ (¬ traced ∧ ReadResult.IsTooDeep r₂) ∨ r₁ = r₂ := by
  obtain ⟨q₁, s₁, hrun₁, rfl⟩ := ends_read h₁
  obtain ⟨q₂, s₂, hrun₂, rfl⟩ := ends_read h₂
  rw [← hdepth] at hrun₂
  have hawait : S.Awaits [] fun n => (Plan.resolve fresh path).account S (S.account n) :=
    fun _ h => absurd h List.not_mem_nil
  rcases follow_agrees hS hp₁ hp₂ (evaluate_accounted hS hp₁ _) (evaluate_accounted hS hp₂ _)
    (evaluate_agrees hS hp₁ hp₂ _) (Plan.evaluates_resolve fresh path) hb hawait hrun₁ hrun₂ with
    h | ⟨htr, h⟩ | rfl
  · exact .inl (isTooDeep_conclude h)
  · exact .inr (.inl ⟨htr, isTooDeep_conclude h⟩)
  · refine .inr (.inr ?_)
    cases q₁ with
    | error fault => rfl
    | ok v => rw [conclude, conclude, hfall]

end Request

end LiveDoc
