import LiveDoc.Proofs.ComposedTasks
import LiveDoc.Proofs.WriteLog

/-! # Reads as entries of a log

Whatever a read does to the cache is a sequence of begun, finished and stored evaluations. The
evaluations that it leaves open while it waits run on among those of other reads, so that whoever
stores a result has begun it.
-/

namespace LiveDoc

variable {σ α β : Type}

namespace CacheOp

/-- Whether the operation belongs to an evaluation; the others write or clear. -/
def evaluates : CacheOp → Bool
  | .begin | .finish _ | .keep _ _ => true
  | .invalidate _ | .clear => false

/-- Evaluations stamp nothing. -/
theorem apply_of_evaluates {op : CacheOp} (ho : op.evaluates) (c : Cache) :
    (op.apply c).epoch = c.epoch ∧ (op.apply c).written = c.written ∧
      (op.apply c).touched = c.touched := by
  cases op with
  | begin | finish | keep => exact ⟨rfl, rfl, rfl⟩
  | invalidate | clear => cases ho

theorem foldl_of_evaluates {ops : List CacheOp} (ho : ∀ op ∈ ops, op.evaluates) (c : Cache) :
    (ops.foldl apply c).epoch = c.epoch ∧ (ops.foldl apply c).written = c.written ∧
      (ops.foldl apply c).touched = c.touched := by
  induction ops generalizing c with
  | nil => exact ⟨rfl, rfl, rfl⟩
  | cons op rest ih =>
    obtain ⟨ho, hrest⟩ := List.forall_mem_cons.1 ho
    obtain ⟨he, hw, ht⟩ := ih hrest (op.apply c)
    obtain ⟨he', hw', ht'⟩ := apply_of_evaluates ho c
    exact ⟨he.trans he', hw.trans hw', ht.trans ht'⟩

end CacheOp

namespace World

/-- The cache has come about by a legal log, after which evaluations of the given epochs run. -/
structure Logged (ops : List CacheOp) (running : List Nat) (w : World σ) : Prop where
  legal : Cache.Legal ops
  cache_eq : w.cache = Cache.run ops
  running_perm : w.cache.running.Perm running

/-- A read leads from one world to another with the same document and context, by operations of
evaluations. -/
structure Reads (ops ops' : List CacheOp) (w w' : World σ) : Prop where
  document_eq : w'.document = w.document
  context_eq : w'.context = w.context
  evaluates : ∃ more, ops' = ops ++ more ∧ ∀ op ∈ more, op.evaluates

variable {ops ops' ops'' : List CacheOp} {running : List Nat} {w w' w'' : World σ}

/-- Without an operation nothing is logged. -/
theorem Reads.of_eq (hd : w'.document = w.document) (hc : w'.context = w.context) :
    Reads ops ops w w' :=
  ⟨hd, hc, [], (List.append_nil ops).symm, nofun⟩

theorem Reads.trans (h : Reads ops ops' w w') (h' : Reads ops' ops'' w' w'') :
    Reads ops ops'' w w'' := by
  obtain ⟨more, rfl, hm⟩ := h.evaluates
  obtain ⟨more', rfl, hm'⟩ := h'.evaluates
  refine ⟨h'.document_eq.trans h.document_eq, h'.context_eq.trans h.context_eq, more ++ more', ?_, ?_⟩
  · rw [List.append_assoc]
  · exact List.forall_mem_append.2 ⟨hm, hm'⟩

/-- Where a read has stored nothing, it has changed nothing but what runs. -/
theorem Reads.cache_eq (h : Reads ops ops' w w')
    (hw : w.cache = Cache.run ops) (hw' : w'.cache = Cache.run ops')
    (he : w'.cache.entries = w.cache.entries) :
    w'.cache = { w.cache with running := w'.cache.running } := by
  obtain ⟨more, rfl, hm⟩ := h.evaluates
  have hrun : w'.cache = more.foldl CacheOp.apply w.cache := by
    rw [hw', hw, Cache.run, Cache.run, List.foldl_append]
  obtain ⟨hepoch, hwritten, htouched⟩ := CacheOp.foldl_of_evaluates hm w.cache
  rw [← hrun] at hepoch hwritten htouched
  calc w'.cache
      = ⟨w'.cache.entries, w'.cache.epoch, w'.cache.written, w'.cache.touched, w'.cache.running⟩ := rfl
    _ = _ := by rw [he, hepoch, hwritten, htouched]

theorem Reads.step {op : CacheOp} (ho : op.evaluates) (hd : w'.document = w.document)
    (hc : w'.context = w.context) : Reads ops (ops ++ [op]) w w' :=
  ⟨hd, hc, [op], rfl, List.forall_mem_singleton.2 ho⟩

namespace Logged

/-- The log does not tell of the host and of what the hook was told. -/
theorem of_cache (h : Logged ops running w) (hc : w'.cache = w.cache) : Logged ops running w' :=
  ⟨h.legal, hc.trans h.cache_eq, hc ▸ h.running_perm⟩

theorem begin (h : Logged ops running w) :
    Logged (ops ++ [.begin]) (w.cache.epoch :: running) { w with cache := w.cache.begin } where
  legal := h.legal.snoc nofun
  cache_eq := by rw [Cache.run_snoc, h.cache_eq]; rfl
  running_perm := h.running_perm.cons _

theorem finish {epoch : Nat} (h : Logged ops (epoch :: running) w) :
    Logged (ops ++ [.finish epoch]) running { w with cache := w.cache.finish epoch } where
  legal := h.legal.snoc nofun
  cache_eq := by rw [Cache.run_snoc, h.cache_eq]; rfl
  running_perm := by
    have hp := h.running_perm.erase epoch
    rwa [List.erase_cons_head] at hp

theorem keep {key : CacheKey} {entry : CacheEntry} (h : Logged ops (entry.epoch :: running) w) :
    Logged (ops ++ [.keep key entry]) running
      { w with cache := (w.cache.finish entry.epoch).insert key entry } where
  legal := by
    refine h.legal.snoc fun key' entry' he => ?_
    cases he
    rw [← h.cache_eq]
    exact h.running_perm.mem_iff.2 List.mem_cons_self
  cache_eq := by rw [Cache.run_snoc, h.cache_eq]; rfl
  running_perm := h.finish.running_perm

/-- Writing and clearing leave running what runs. -/
theorem change (h : Logged ops running w) {op : CacheOp} (ho : op.evaluates = false)
    (hc : w'.cache = op.apply w.cache) : Logged (ops ++ [op]) running w' where
  legal := by
    refine h.legal.snoc fun key entry he => ?_
    rw [he] at ho
    cases ho
  cache_eq := by rw [Cache.run_snoc, hc, h.cache_eq]
  running_perm := by
    rw [hc]
    cases op with
    | invalidate path =>
      show (w.cache.invalidate path).running.Perm running
      rw [Cache.invalidate_running]
      exact h.running_perm
    | clear =>
      show w.cache.clear.running.Perm running
      rw [Cache.clear, Cache.prune_running]
      exact h.running_perm
    | begin | finish | keep => cases ho

theorem changes (h : Logged ops running w) {more : List CacheOp}
    (hm : ∀ op ∈ more, op.evaluates = false) (hc : w'.cache = more.foldl CacheOp.apply w.cache) :
    Logged (ops ++ more) running w' := by
  induction more generalizing ops w with
  | nil =>
    rw [List.append_nil]
    exact h.of_cache hc
  | cons op rest ih =>
    obtain ⟨ho, hm⟩ := List.forall_mem_cons.1 hm
    have hop : Logged (ops ++ [op]) running { w with cache := op.apply w.cache } := h.change ho rfl
    rw [List.append_cons]
    exact ih hop hm hc

theorem empty (hc : w.cache = .empty) : Logged [] [] w :=
  ⟨Cache.legal_nil, hc, hc ▸ List.Perm.refl _⟩

end Logged

end World

namespace Step

/-- A computation that began among other running evaluations goes on by a log, whatever happens
between its steps, and has no evaluation of its own left open when it ends. -/
inductive Logged : World σ → List CacheOp → List Nat → Step σ α → Prop where
  | done {w w' : World σ} {ops ops' : List CacheOp} {others : List Nat} {a : α}
    (reads : World.Reads ops ops' w w') (logged : w'.Logged ops' others) :
    Logged w ops others (.done a w')
  | wait {w w' : World σ} {ops ops' : List CacheOp} {others : List Nat} {call : Call σ}
    {next : Except String Value → World σ → Step σ α} (own : List Nat)
    (reads : World.Reads ops ops' w w') (logged : w'.Logged ops' (own ++ others))
    (rest : ∀ answer v ops others, v.Logged ops (own ++ others) →
      Logged v ops others (next answer v)) :
    Logged w ops others (.wait call next w')

variable {w w' : World σ} {ops ops' : List CacheOp} {others : List Nat} {s : Step σ α}

theorem Logged.after (hr : World.Reads ops ops' w w') (h : s.Logged w' ops' others) :
    s.Logged w ops others := by
  cases h with
  | done reads logged => exact .done (hr.trans reads) logged
  | wait own reads logged rest => exact .wait own (hr.trans reads) logged rest

/-- Evaluations that a computation leaves open may be ended by what follows it. -/
theorem Logged.bind (extra : List Nat) {f : α → World σ → Step σ β}
    (h : s.Logged w ops (extra ++ others))
    (hf : ∀ a v ops others, v.Logged ops (extra ++ others) → (f a v).Logged v ops others) :
    (s.bind f).Logged w ops others := by
  generalize hall : extra ++ others = all at h
  induction h generalizing others with
  | done reads logged =>
    subst hall
    exact (hf _ _ _ _ logged).after reads
  | wait own reads logged rest ih =>
    subst hall
    rw [← List.append_assoc] at logged
    refine .wait (own ++ extra) reads logged fun answer v ops' others' hv => ?_
    rw [List.append_assoc] at hv
    exact ih answer v ops' _ hv rfl

/-- A step that does nothing to the cache is not logged. -/
theorem logged_done {a : α} (hw : w.Logged ops others) (hd : w'.document = w.document)
    (hc : w'.context = w.context) (hcache : w'.cache = w.cache) :
    (Step.done a w').Logged w ops others :=
  .done (.of_eq hd hc) (hw.of_cache hcache)

theorem logged_poll {call : Call σ} {next : Except String Value → World σ → Step σ α} (own : List Nat)
    (rest : ∀ answer v ops others, v.Logged ops (own ++ others) →
      (next answer v).Logged v ops others)
    (hw : w.Logged ops (own ++ others)) : (call.poll next w).Logged w ops others := by
  have hhost (host : σ) : World.Reads ops ops w { w with host := host } := .of_eq rfl rfl
  unfold Call.poll
  rcases call.resolver.ask call.args call.asked w.host with ⟨_ | answer, host⟩
  · exact .wait own (hhost host) (hw.of_cache rfl) rest
  · exact (rest answer { w with host := host } ops others (hw.of_cache rfl)).after (hhost host)

end Step

/-- The task goes on by a log from every stack, among whatever else runs. -/
def Task.Logged (t : Task σ α) : Prop :=
  ∀ stack w ops others, w.Logged ops others → (t stack w).Logged w ops others

namespace Task

theorem logged_pure (a : α) : (pure a : Task σ α).Logged :=
  fun _ _ _ _ hw => Step.logged_done hw rfl rfl rfl

theorem Logged.bind {t : Task σ α} {f : α → Task σ β} (ht : t.Logged) (hf : ∀ a, (f a).Logged) :
    (t >>= f).Logged :=
  fun stack w ops others hw => Step.Logged.bind [] (ht stack w ops others hw)
    fun pair v ops others hv => hf pair.1 pair.2 v ops others hv

theorem logged_stack : (Task.stack : Task σ Stack).Logged :=
  fun _ _ _ _ hw => Step.logged_done hw rfl rfl rfl

theorem logged_onStack (f : Stack → Stack) : (Task.onStack f : Task σ Unit).Logged :=
  fun _ _ _ _ hw => Step.logged_done hw rfl rfl rfl

theorem logged_world : (Task.world : Task σ (World σ)).Logged :=
  fun _ _ _ _ hw => Step.logged_done hw rfl rfl rfl

theorem logged_ask (r : Resolver σ) (args : List Value) : (Task.ask r args).Logged :=
  fun _ _ _ _ hw => Step.logged_poll [] (fun _ _ _ _ hv => Step.logged_done hv rfl rfl rfl) hw

end Task

namespace Request

variable (request : Request σ)

theorem inherited_logged : request.Inherited (@Task.Logged σ) where
  pure := Task.logged_pure
  bind := Task.Logged.bind
  stack hf _ := Task.logged_stack.bind hf
  taint := Task.logged_onStack _
  tell _ := fun _ _ _ _ hw => Step.logged_done hw rfl rfl rfl
  find := Inherited.find_of_world Task.logged_pure Task.Logged.bind Task.logged_world
    fun _ => Task.logged_onStack _
  keptResult := Inherited.keptResult_of_world Task.logged_pure Task.Logged.bind Task.logged_world
    fun _ => Task.logged_onStack _

theorem logged_follow {evaluate : Evaluator σ} (he : ∀ site fresh, (evaluate site fresh).Logged)
    (p : Plan α) : (request.follow evaluate p).Logged :=
  (inherited_logged request).follow (fun _ r _ => Task.logged_ask r) he p

/-- An evaluation is begun in the epoch in which it is finished, with or without a result to
store. -/
theorem compute_eq (evaluate : Evaluator σ) (site : Site) (stack : Stack) (w : World σ) :
    request.compute evaluate site stack w =
      (request.follow evaluate (Plan.render site) (.enter site.path :: stack)
        { w with cache := w.cache.begin }).bind fun (result, frames) v =>
          .done (result, Stack.pop frames)
            { v with cache := store site w.cache.epoch result frames (v.cache.finish w.cache.epoch) } :=
  rfl

/-- What an evaluation has come to is stored under the key of its expression, or not at all. -/
theorem store_cases (site : Site) (epoch : Nat) (result : Except Fault Value) (frames : Stack)
    (c : Cache) : store site epoch result frames c = c ∨ ∃ value reads,
      result = .ok value ∧
        store site epoch result frames c = c.insert (keyOf site) ⟨value, epoch, reads⟩ := by
  unfold store
  split
  · split
    · exact .inr ⟨_, _, rfl, rfl⟩
    · exact .inl rfl
  · exact .inl rfl

theorem logged_compute {evaluate : Evaluator σ} (he : ∀ site fresh, (evaluate site fresh).Logged)
    (site : Site) : (request.compute evaluate site).Logged := by
  intro stack w ops others hw
  have hbegin : World.Reads ops (ops ++ [.begin]) w { w with cache := w.cache.begin } :=
    .step rfl rfl rfl
  have hfollow := logged_follow request he (Plan.render site) (.enter site.path :: stack) _ _ _ hw.begin
  rw [compute_eq]
  refine (Step.Logged.bind [w.cache.epoch] hfollow ?_).after hbegin
  rintro ⟨result, frames⟩ v ops others hv
  rcases store_cases site w.cache.epoch result frames (v.cache.finish w.cache.epoch) with
    hs | ⟨value, reads, -, hs⟩
  · simp only [hs]
    have hfinish : World.Reads ops (ops ++ [.finish w.cache.epoch]) v
        { v with cache := v.cache.finish w.cache.epoch } := .step rfl rfl rfl
    exact .done hfinish hv.finish
  · let entry : CacheEntry := ⟨value, w.cache.epoch, reads⟩
    simp only [hs]
    have hkeep : World.Reads ops (ops ++ [.keep (keyOf site) entry]) v
        { v with cache := (v.cache.finish entry.epoch).insert (keyOf site) entry } :=
      .step rfl rfl rfl
    exact .done hkeep hv.keep

theorem logged_evaluate (left : Nat) (site : Site) (fresh : Bool) :
    (request.evaluate left site fresh).Logged :=
  (inherited_logged request).evaluate (logged_compute request) left site fresh

theorem logged_read (path : Path) (fresh : Bool) {w : World σ} {ops : List CacheOp}
    {others : List Nat} (hw : w.Logged ops others) :
    (request.read path fresh w).Logged w ops others := by
  have hplan := logged_follow request (logged_evaluate request request.options.maxDepth)
    (Plan.resolve fresh path) [] w ops others hw
  refine Step.Logged.bind [] hplan ?_
  rintro ⟨result, stack⟩ v ops others hv
  cases result <;> exact Step.logged_done hv rfl rfl rfl

end Request

end LiveDoc
