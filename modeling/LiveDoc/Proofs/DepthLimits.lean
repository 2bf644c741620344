import LiveDoc.Proofs.CallContexts

/-! # The depth limit

How many evaluations may nest decides whether a read fails for nesting too deep and nothing else.
With a higher limit a read goes through the same steps, so what it gave stays as it is.
-/

namespace LiveDoc

variable {σ α : Type}

/-- Worlds that are the same but for the state of the host. -/
def World.SaveHost (w₁ w₂ : World σ) : Prop :=
  ∃ host, w₂ = { w₁ with host := host }

namespace World.SaveHost

variable {w₁ w₂ : World σ}

theorem withCache (h : w₁.SaveHost w₂) (f : Cache → Cache) :
    World.SaveHost { w₁ with cache := f w₁.cache } { w₂ with cache := f w₂.cache } := by
  obtain ⟨host, rfl⟩ := h
  exact ⟨host, rfl⟩

theorem withHosts (h : w₁.SaveHost w₂) (host₁ host₂ : σ) :
    World.SaveHost { w₁ with host := host₁ } { w₂ with host := host₂ } := by
  obtain ⟨host, rfl⟩ := h
  exact ⟨host₂, rfl⟩

theorem cache_eq (h : w₁.SaveHost w₂) : w₂.cache = w₁.cache := by
  obtain ⟨host, rfl⟩ := h
  rfl

theorem locate_eq (h : w₁.SaveHost w₂) (path : Path) (context : Context) :
    locate w₂.document path (w₂.context.merge context) =
      locate w₁.document path (w₁.context.merge context) := by
  obtain ⟨host, rfl⟩ := h
  rfl

end World.SaveHost

/-- A run ends as another one does, unless it nests too deep. -/
def Follows (r₁ r₂ : Except Fault α) (stack₁ stack₂ : Stack) (w₁ w₂ : World σ) : Prop :=
  IsTooDeep r₁ ∨ r₁ = r₂ ∧ stack₁ = stack₂ ∧ w₁.SaveHost w₂

/-- Passing a failure on as one that was told of tells runs apart as little. -/
theorem Follows.mapError {r₁ r₂ : Except Fault α} {stack₁ stack₂ : Stack} {w₁ w₂ : World σ}
    (h : Follows r₁ r₂ stack₁ stack₂ w₁ w₂) :
    Follows (r₁.mapError fun fault => ⟨fault.error, true⟩)
      (r₂.mapError fun fault => ⟨fault.error, true⟩) stack₁ stack₂ w₁ w₂ := by
  rcases h with ⟨limit, path, rfl⟩ | ⟨rfl, hs, hw⟩
  · exact .inl ⟨limit, path, rfl⟩
  · exact .inr ⟨rfl, hs, hw⟩

namespace Request

variable {request₁ request₂ : Request σ} {f : String → List Value → Except String Value}

/-- Requests with one context, whose calls come to the same. -/
structure Akin (request₁ request₂ : Request σ) (f : String → List Value → Except String Value) :
    Prop where
  pure₁ : request₁.options.Pure f
  pure₂ : request₂.options.Pure f
  registry : request₁.options.registry = request₂.options.registry
  context : request₁.context = request₂.context

theorem Akin.outcome (hk : request₁.Akin request₂ f) (name : String) (args : List Value) :
    request₂.outcome f name args = request₁.outcome f name args := by
  rw [Request.outcome, Request.outcome, hk.registry]

/-- Whatever one way of evaluating comes to without nesting too deep, another one comes to. -/
def Deepens (evaluate₁ evaluate₂ : Evaluator σ) : Prop :=
  ∀ site fresh stack w₁ w₂ r₁ r₂ stack₁ stack₂ v₁ v₂, World.SaveHost w₁ w₂ →
    (evaluate₁ site fresh).Runs stack w₁ r₁ stack₁ v₁ →
    (evaluate₂ site fresh).Runs stack w₂ r₂ stack₂ v₂ → Follows r₁ r₂ stack₁ stack₂ v₁ v₂

variable {evaluate₁ evaluate₂ : Evaluator σ} {stack stack₁ stack₂ : Stack}
  {w₁ w₂ v₁ v₂ : World σ}

theorem follow_deepens (hk : request₁.Akin request₂ f) (hd : Deepens evaluate₁ evaluate₂)
    {p : Plan α} {r₁ r₂ : Except Fault α} (hw : w₁.SaveHost w₂)
    (h₁ : (request₁.follow evaluate₁ p).Runs stack w₁ r₁ stack₁ v₁)
    (h₂ : (request₂.follow evaluate₂ p).Runs stack w₂ r₂ stack₂ v₂) :
    Follows r₁ r₂ stack₁ stack₂ v₁ v₂ := by
  induction p generalizing stack w₁ w₂ with
  | done result =>
    obtain ⟨rfl, rfl, rfl⟩ := Task.runs_pure_iff.1 h₁
    obtain ⟨rfl, rfl, rfl⟩ := Task.runs_pure_iff.1 h₂
    exact .inr ⟨rfl, rfl, hw⟩
  | find path next ih =>
    have h₂ := runs_follow_find h₂
    rw [foundAt, ← hk.context, hw.locate_eq] at h₂
    exact ih _ hw (runs_follow_find h₁) h₂
  | evaluate site fresh next ih =>
    simp only [follow, Task.runs_bind_iff] at h₁ h₂
    obtain ⟨q₁, s₁, u₁, hsite₁, h₁⟩ := h₁
    obtain ⟨q₂, s₂, u₂, hsite₂, h₂⟩ := h₂
    rcases hd site fresh _ _ _ _ _ _ _ _ _ hw hsite₁ hsite₂ with ⟨limit, path, rfl⟩ | ⟨rfl, rfl, hw⟩
    · obtain ⟨rfl, -, -⟩ := Task.runs_pure_iff.1 h₁
      exact .inl ⟨limit, path, rfl⟩
    · cases q₁ with
      | ok value => exact ih value hw h₁ h₂
      | error fault =>
        obtain ⟨rfl, rfl, rfl⟩ := Task.runs_pure_iff.1 h₁
        obtain ⟨rfl, rfl, rfl⟩ := Task.runs_pure_iff.1 h₂
        exact .inr ⟨rfl, rfl, hw⟩
  | call name args next ih =>
    simp only [follow, Task.runs_bind_iff] at h₁ h₂
    obtain ⟨q₁, s₁, u₁, hcall₁, h₁⟩ := h₁
    obtain ⟨q₂, s₂, u₂, hcall₂, h₂⟩ := h₂
    obtain ⟨rfl, rfl, host₁, rfl⟩ := runs_call hk.pure₁ hcall₁
    obtain ⟨rfl, rfl, host₂, rfl⟩ := runs_call hk.pure₂ hcall₂
    rw [hk.outcome] at h₂
    have hw := hw.withHosts host₁ host₂
    cases hr : request₁.outcome f name args with
    | ok value =>
      simp only [hr] at h₁ h₂
      exact ih value hw h₁ h₂
    | error fault =>
      simp only [hr] at h₁ h₂
      obtain ⟨rfl, rfl, rfl⟩ := Task.runs_pure_iff.1 h₁
      obtain ⟨rfl, rfl, rfl⟩ := Task.runs_pure_iff.1 h₂
      exact .inr ⟨rfl, rfl, hw⟩

/-- What an expression came to is kept in both runs, or in neither. -/
theorem compute_deepens (hk : request₁.Akin request₂ f) (hd : Deepens evaluate₁ evaluate₂)
    {site : Site} {r₁ r₂ : Except Fault Value} (hw : w₁.SaveHost w₂)
    (h₁ : (request₁.compute evaluate₁ site).Runs stack w₁ r₁ stack₁ v₁)
    (h₂ : (request₂.compute evaluate₂ site).Runs stack w₂ r₂ stack₂ v₂) :
    Follows r₁ r₂ stack₁ stack₂ v₁ v₂ := by
  obtain ⟨s₁, u₁, hrun₁, rfl, rfl⟩ := runs_compute h₁
  obtain ⟨s₂, u₂, hrun₂, rfl, rfl⟩ := runs_compute h₂
  rcases follow_deepens hk hd (hw.withCache Cache.begin) hrun₁ hrun₂ with
    hdeep | ⟨rfl, rfl, hu⟩
  · exact .inl hdeep
  · refine .inr ⟨rfl, rfl, ?_⟩
    rw [hw.cache_eq]
    exact hu.withCache fun c => store site w₁.cache.epoch r₁ s₁ (c.finish w₁.cache.epoch)

theorem evaluated_deepens (hk : request₁.Akin request₂ f) {left₁ left₂ : Nat}
    (hle : left₁ ≤ left₂)
    (hbelow : ∀ n₁ n₂, left₁ = n₁ + 1 → left₂ = n₂ + 1 →
      Deepens (request₁.evaluate n₁) (request₂.evaluate n₂)) :
    Deepens (request₁.evaluate left₁) (request₂.evaluate left₂) := by
  intro site fresh stack w₁ w₂ r₁ r₂ stack₁ stack₂ v₁ v₂ hw h₁ h₂
  have hcache := hw.cache_eq
  cases runs_evaluate hk.pure₁.onError h₁ with
  | @kept entry₁ hl₁ hfresh =>
    cases runs_evaluate hk.pure₂.onError h₂ with
    | @kept entry₂ hl₂ =>
      rw [hcache, hl₁] at hl₂
      obtain rfl := Option.some.inj hl₂
      exact .inr ⟨rfl, rfl, hw⟩
    | cycle hu => simp [hfresh, hcache, hl₁] at hu
    | tooDeep hu => simp [hfresh, hcache, hl₁] at hu
    | computed hu => simp [hfresh, hcache, hl₁] at hu
  | cycle hu hwait =>
    cases runs_evaluate hk.pure₂.onError h₂ with
    | kept hl hfresh => simp [hfresh, ← hcache, hl] at hu
    | cycle => exact .inr ⟨rfl, rfl, hw⟩
    | tooDeep _ hfree => rw [hwait] at hfree; cases hfree
    | computed _ hfree => rw [hwait] at hfree; cases hfree
  | tooDeep => exact .inl ⟨_, _, rfl⟩
  | @computed hu hfree n₁ hn₁ q₁ _ _ hrun₁ =>
    cases runs_evaluate hk.pure₂.onError h₂ with
    | kept hl hfresh => simp [hfresh, ← hcache, hl] at hu
    | cycle _ hwait => rw [hfree] at hwait; cases hwait
    | tooDeep _ _ hspent => omega
    | @computed _ _ n₂ hn₂ q₂ _ _ hrun₂ =>
      exact Follows.mapError (compute_deepens hk (hbelow n₁ n₂ hn₁ hn₂) hw hrun₁ hrun₂)

theorem evaluate_deepens (hk : request₁.Akin request₂ f) {left₁ left₂ : Nat}
    (hle : left₁ ≤ left₂) : Deepens (request₁.evaluate left₁) (request₂.evaluate left₂) := by
  induction left₁ generalizing left₂ with
  | zero => exact evaluated_deepens hk hle fun n₁ n₂ h => by cases h
  | succ left₁ ih =>
    refine evaluated_deepens hk hle fun n₁ n₂ h₁ h₂ => ?_
    obtain rfl := Nat.succ.inj h₁
    exact ih (by omega)

/-- A read that does not nest too deep ends as it does with a higher limit. -/
theorem read_deepens (hk : request₁.Akin request₂ f)
    (hdepth : request₁.options.maxDepth ≤ request₂.options.maxDepth)
    (hfall : request₁.fallback = request₂.fallback) (hw : w₁.SaveHost w₂) {path : Path}
    {fresh : Bool} {r₁ r₂ : ReadResult} (h₁ : (request₁.read path fresh w₁).Ends r₁ v₁)
    (h₂ : (request₂.read path fresh w₂).Ends r₂ v₂) :
    r₁.IsTooDeep ∨ r₁ = r₂ ∧ v₁.SaveHost v₂ := by
  obtain ⟨q₁, s₁, hrun₁, rfl⟩ := ends_read h₁
  obtain ⟨q₂, s₂, hrun₂, rfl⟩ := ends_read h₂
  rcases follow_deepens hk (evaluate_deepens hk hdepth) hw hrun₁ hrun₂ with h | ⟨rfl, -, hv⟩
  · exact .inl (isTooDeep_conclude h)
  · refine .inr ⟨?_, hv⟩
    cases q₁ with
    | error fault => rfl
    | ok v => rw [conclude, conclude, hfall]

end Request

namespace Tree

variable {document : Value} {options : Options σ} {host : σ} {base : Path} {text : String}
  {asked : ReadOptions} {r : ReadResult} {t : Tree σ} {depth depth' : Nat}

/-- What a read of a new tree gives without nesting too deep, a read of a new tree with a higher
limit gives as well. -/
theorem gives_of_deeper {f : String → List Value → Except String Value} (hp : options.Pure f)
    (hle : depth ≤ depth') (hg : (upTo document options host depth).Gives base text asked r t)
    (hr : ¬ r.IsTooDeep) {host' : σ} {r' : ReadResult} {t' : Tree σ}
    (hg' : (upTo document options host' depth').Gives base text asked r' t') : r' = r := by
  rcases hg.cases rfl with ⟨e, hb, rfl, -⟩ | ⟨path, hb, he, -, -⟩
  · rcases hg'.cases rfl with ⟨e', hb', rfl, -⟩ | ⟨path', hb', -, -, -⟩
    · rw [hb] at hb'
      rw [Except.error.inj hb']
    · rw [hb] at hb'
      cases hb'
  · rcases hg'.cases rfl with ⟨e', hb', -, -⟩ | ⟨path', hb', he', -, -⟩
    · rw [hb] at hb'
      cases hb'
    · rw [hb] at hb'
      obtain rfl := Except.ok.inj hb'
      have hk : ((upTo document options host depth).request asked).Akin
          ((upTo document options host' depth').request asked) f :=
        ⟨⟨hp.onError, hp.computes⟩, ⟨hp.onError, hp.computes⟩, rfl, rfl⟩
      rcases Request.read_deepens hk hle rfl ⟨host', rfl⟩ he he' with h | ⟨h, -⟩
      · exact absurd h hr
      · exact h.symm

/-- The depth limit only cuts off: a read of a new tree that does not fail for nesting too deep ends
with the same result on a new tree with a higher limit. -/
theorem depth_limit_cuts_off {f : String → List Value → Except String Value}
    (hp : options.Pure f) (ha : options.Answers) (hle : depth ≤ depth')
    (hg : (upTo document options host depth).Gives base text asked r t) (hr : ¬ r.IsTooDeep)
    (host' : σ) : (∃ t', (upTo document options host' depth').Gives base text asked r t') ∧
      ∀ r' t', (upTo document options host' depth').Gives base text asked r' t' → r' = r := by
  have heq (r' : ReadResult) (t' : Tree σ)
      (hg' : (upTo document options host' depth').Gives base text asked r' t') : r' = r :=
    gives_of_deeper hp hle hg hr hg'
  obtain ⟨r', t', hg'⟩ :=
    exists_gives (t := upTo document options host' depth') ha rfl base text asked
  obtain rfl := heq r' t' hg'
  exact ⟨⟨t', hg'⟩, heq⟩

/-- Two expressions that wait for each other, and a third one that waits for them. -/
def entangled : Value :=
  .obj [(".a", .str "${b ?? 1}"), (".b", .str "${c}"), (".c", .str "${b}")]

def entanglement : ReadResult :=
  .error (.cycle [⟨[".b"]⟩, ⟨[".c"]⟩, ⟨[".b"]⟩])

theorem entangled_at_three :
    ((upTo entangled .default () 3).get .root "a" .default).2 = some entanglement := by
  cbv

/-- A cycle that is found three evaluations deep is found with a higher limit. -/
theorem entangled_deeper :
    (∃ t', (upTo entangled .default () 50).Gives .root "a" .default entanglement t') ∧
      ∀ r' t', (upTo entangled .default () 50).Gives .root "a" .default r' t' →
        r' = entanglement := by
  have hp : (Options.default : Options Unit).Pure fun _ _ => .ok .null := ⟨rfl, nofun⟩
  have hle : 3 ≤ 50 := by decide
  refine depth_limit_cuts_off hp nofun hle (gives_of_get (Prod.ext rfl entangled_at_three)) ?_ ()
  rintro ⟨limit, path, h⟩
  cases h

end Tree

end LiveDoc
