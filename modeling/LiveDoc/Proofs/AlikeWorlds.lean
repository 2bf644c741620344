import LiveDoc.Proofs.Logbook

/-! # Worlds that reads cannot tell apart

As long as nothing is written, a read does the same in two worlds with one document, one context,
one state of the host and the same results kept for the same reasons. What else happened to their
caches, and what else runs in them, does not count.
-/

namespace LiveDoc

variable {σ α β : Type}

/-- What a kept result tells to a read that finds it. -/
def CacheEntry.told (entry : CacheEntry) : Value × List Path :=
  (entry.value, entry.reads)

/-- Worlds in which reads find the same, each in an epoch of its own. -/
structure World.Alike (epoch epoch' : Nat) (w w' : World σ) : Prop where
  document_eq : w.document = w'.document
  context_eq : w.context = w'.context
  host_eq : w.host = w'.host
  epoch_eq : w.cache.epoch = epoch
  epoch_eq' : w'.cache.epoch = epoch'
  timely : w.cache.Timely
  timely' : w'.cache.Timely
  lookup : ∀ key, (w.cache.lookup key).map CacheEntry.told = (w'.cache.lookup key).map CacheEntry.told

variable {epoch epoch' : Nat} {w w' : World σ}

namespace World.Alike

/-- Reports and running evaluations do not count. -/
theorem congr {v v' : World σ} (h : w.Alike epoch epoch' w') (hd : v.document = v'.document)
    (hc : v.context = v'.context) (hh : v.host = v'.host) {running running' : List Nat}
    (hw : v.cache = { w.cache with running := running })
    (hw' : v'.cache = { w'.cache with running := running' }) : v.Alike epoch epoch' v' where
  document_eq := hd
  context_eq := hc
  host_eq := hh
  epoch_eq := by rw [hw]; exact h.epoch_eq
  epoch_eq' := by rw [hw']; exact h.epoch_eq'
  timely := by
    rw [hw]
    exact ⟨h.timely.written_keys, h.timely.touched_keys, h.timely.written_le, h.timely.touched_le,
      h.timely.entries_le⟩
  timely' := by
    rw [hw']
    exact ⟨h.timely'.written_keys, h.timely'.touched_keys, h.timely'.written_le, h.timely'.touched_le,
      h.timely'.entries_le⟩
  lookup key := by
    rw [hw, hw']
    exact h.lookup key

theorem withHost (h : w.Alike epoch epoch' w') (host : σ) :
    World.Alike epoch epoch' { w with host := host } { w' with host := host } :=
  h.congr h.document_eq h.context_eq rfl rfl rfl

/-- A read in one of the worlds that stores nothing is not seen but for the host. -/
theorem after_reads {v : World σ} {ops ops' : List CacheOp} (h : w.Alike epoch epoch' w')
    (hr : World.Reads ops ops' w v) (hw : w.cache = Cache.run ops) (hv : v.cache = Cache.run ops')
    (he : v.cache.entries = w.cache.entries) :
    v.Alike epoch epoch' { w' with host := v.host } :=
  h.congr (hr.document_eq.trans h.document_eq) (hr.context_eq.trans h.context_eq) rfl
    (hr.cache_eq hw hv he) rfl

theorem insert (h : w.Alike epoch epoch' w') (key : CacheKey) (value : Value) (reads : List Path) :
    World.Alike epoch epoch' { w with cache := w.cache.insert key ⟨value, epoch, reads⟩ }
      { w' with cache := w'.cache.insert key ⟨value, epoch', reads⟩ } where
  document_eq := h.document_eq
  context_eq := h.context_eq
  host_eq := h.host_eq
  epoch_eq := h.epoch_eq
  epoch_eq' := h.epoch_eq'
  timely := h.timely.insert key (Nat.le_of_eq h.epoch_eq.symm)
  timely' := h.timely'.insert key (Nat.le_of_eq h.epoch_eq'.symm)
  lookup k := by
    have hl : (w.cache.insert key ⟨value, epoch, reads⟩).lookup k =
        if k = key then some ⟨value, epoch, reads⟩ else w.cache.lookup k :=
      h.timely.lookup_insert key (Nat.le_of_eq h.epoch_eq) k
    have hl' : (w'.cache.insert key ⟨value, epoch', reads⟩).lookup k =
        if k = key then some ⟨value, epoch', reads⟩ else w'.cache.lookup k :=
      h.timely'.lookup_insert key (Nat.le_of_eq h.epoch_eq') k
    simp only [hl, hl']
    split
    · rfl
    · exact h.lookup k

theorem clear (h : w.Alike epoch epoch' w') : World.Alike epoch epoch'
    { w with cache := w.cache.clear } { w' with cache := w'.cache.clear } where
  document_eq := h.document_eq
  context_eq := h.context_eq
  host_eq := h.host_eq
  epoch_eq := (Cache.prune_epoch _).trans h.epoch_eq
  epoch_eq' := (Cache.prune_epoch _).trans h.epoch_eq'
  timely := h.timely.clear
  timely' := h.timely'.clear
  lookup key := by simp only [Cache.lookup_clear]

end World.Alike

/-- Steps that come to the same result, or wait for the same call and go on alike in whatever worlds
are alike. -/
inductive Step.Alike (epoch epoch' : Nat) : Step σ α → Step σ α → Prop where
  | done {a : α} {w w' : World σ} (world : w.Alike epoch epoch' w') :
    Step.Alike epoch epoch' (.done a w) (.done a w')
  | wait {call : Call σ} {next next' : Except String Value → World σ → Step σ α} {w w' : World σ}
    (world : w.Alike epoch epoch' w')
    (rest : ∀ answer v v', v.Alike epoch epoch' v' →
      Step.Alike epoch epoch' (next answer v) (next' answer v')) :
    Step.Alike epoch epoch' (.wait call next w) (.wait call next' w')

namespace Step

variable {s s' : Step σ α}

theorem Alike.world (h : s.Alike epoch epoch' s') : s.world.Alike epoch epoch' s'.world := by
  cases h with
  | done world => exact world
  | wait world rest => exact world

theorem Alike.bind {f f' : α → World σ → Step σ β} (h : s.Alike epoch epoch' s')
    (hf : ∀ a w w', w.Alike epoch epoch' w' → (f a w).Alike epoch epoch' (f' a w')) :
    (s.bind f).Alike epoch epoch' (s'.bind f') := by
  induction h with
  | done world => exact hf _ _ _ world
  | wait world rest ih => exact .wait world ih

theorem alike_poll {call : Call σ} {next next' : Except String Value → World σ → Step σ α}
    (rest : ∀ answer v v', v.Alike epoch epoch' v' →
      (next answer v).Alike epoch epoch' (next' answer v'))
    (hw : w.Alike epoch epoch' w') :
    (call.poll next w).Alike epoch epoch' (call.poll next' w') := by
  unfold Call.poll
  rw [← hw.host_eq]
  rcases call.resolver.ask call.args call.asked w.host with ⟨_ | answer, host⟩
  · exact .wait (hw.withHost host) rest
  · exact rest answer _ _ (hw.withHost host)

end Step

/-- The task does the same in worlds that are alike. -/
def Task.Blind (epoch epoch' : Nat) (t : Task σ α) : Prop :=
  ∀ stack w w', w.Alike epoch epoch' w' → (t stack w).Alike epoch epoch' (t stack w')

namespace Task

theorem blind_pure (a : α) : (pure a : Task σ α).Blind epoch epoch' :=
  fun _ _ _ hw => .done hw

theorem Blind.bind {t : Task σ α} {f : α → Task σ β} (ht : t.Blind epoch epoch')
    (hf : ∀ a, (f a).Blind epoch epoch') : (t >>= f).Blind epoch epoch' :=
  fun stack w w' hw => (ht stack w w' hw).bind fun pair w w' hw => hf pair.1 pair.2 w w' hw

theorem blind_stack : (Task.stack : Task σ Stack).Blind epoch epoch' :=
  fun _ _ _ hw => .done hw

theorem blind_onStack (f : Stack → Stack) : (Task.onStack f : Task σ Unit).Blind epoch epoch' :=
  fun _ _ _ hw => .done hw

theorem blind_ask (r : Resolver σ) (args : List Value) : (Task.ask r args).Blind epoch epoch' :=
  fun _ _ _ hw => Step.alike_poll (fun _ _ _ hv => .done hv) hw

end Task

namespace Request

variable (request : Request σ)

theorem blind_find (path : Path) : (request.find path).Blind epoch epoch' := by
  intro stack w w' hw
  have hfind (v : World σ) : request.find path stack v =
      .done (.ofLocated (locate v.document path (v.context.merge request.context)),
        stack.record (walkReads path)) v := rfl
  rw [hfind, hfind, hw.document_eq, hw.context_eq]
  exact .done hw

theorem blind_tell (report : Report) : (Task.onWorld fun w : World σ =>
    { w with reports := w.reports ++ [report] }).Blind epoch epoch' :=
  fun _ _ _ hw => .done (hw.congr hw.document_eq hw.context_eq hw.host_eq rfl rfl)

theorem blind_keptResult (site : Site) :
    (keptResult site : Task σ (Option Value)).Blind epoch epoch' := by
  intro stack w w' hw
  have hkept (v : World σ) : (keptResult site : Task σ (Option Value)) stack v =
      match (v.cache.lookup (keyOf site)).map CacheEntry.told with
      | none => .done (none, stack) v
      | some (value, reads) => .done (some value, stack.record reads) v := by
    unfold keptResult
    simp only [Bind.bind, Task.world, Step.bind]
    cases v.cache.lookup (keyOf site) <;> rfl
  rw [hkept, hkept, hw.lookup]
  split <;> exact .done hw

theorem inherited_blind : request.Inherited (Task.Blind epoch epoch') where
  pure := Task.blind_pure
  bind := Task.Blind.bind
  stack hf _ := Task.blind_stack.bind hf
  taint := Task.blind_onStack _
  tell := blind_tell
  find := blind_find request
  keptResult := blind_keptResult

theorem blind_follow {evaluate : Evaluator σ}
    (he : ∀ site fresh, (evaluate site fresh).Blind epoch epoch') (p : Plan α) :
    (request.follow evaluate p).Blind epoch epoch' :=
  (inherited_blind request).follow (fun _ r _ => Task.blind_ask r) he p

theorem alike_store {site : Site} {result : Except Fault Value} {frames : Stack}
    (hw : w.Alike epoch epoch' w') : World.Alike epoch epoch'
      { w with cache := store site epoch result frames (w.cache.finish epoch) }
      { w' with cache := store site epoch' result frames (w'.cache.finish epoch') } := by
  have hfinish : World.Alike epoch epoch' { w with cache := w.cache.finish epoch }
      { w' with cache := w'.cache.finish epoch' } :=
    hw.congr hw.document_eq hw.context_eq hw.host_eq rfl rfl
  unfold store
  split
  · next value frame rest =>
    split
    · exact hfinish.insert (keyOf site) value frame.reads
    · exact hfinish
  · exact hfinish

theorem blind_compute {evaluate : Evaluator σ}
    (he : ∀ site fresh, (evaluate site fresh).Blind epoch epoch') (site : Site) :
    (request.compute evaluate site).Blind epoch epoch' := by
  intro stack w w' hw
  have hbegin : World.Alike epoch epoch' { w with cache := w.cache.begin }
      { w' with cache := w'.cache.begin } :=
    hw.congr hw.document_eq hw.context_eq hw.host_eq rfl rfl
  rw [compute_eq, compute_eq, hw.epoch_eq, hw.epoch_eq']
  refine (blind_follow request he (Plan.render site) _ _ _ hbegin).bind ?_
  rintro ⟨result, frames⟩ v v' hv
  exact .done (alike_store hv)

theorem blind_evaluate (left : Nat) (site : Site) (fresh : Bool) :
    (request.evaluate left site fresh).Blind epoch epoch' :=
  (inherited_blind request).evaluate (blind_compute request) left site fresh

/-- A read does the same in worlds that are alike. -/
theorem alike_read (path : Path) (fresh : Bool) (hw : w.Alike epoch epoch' w') :
    (request.read path fresh w).Alike epoch epoch' (request.read path fresh w') := by
  have hplan := blind_follow request (blind_evaluate request request.options.maxDepth)
    (Plan.resolve fresh path) [] w w' hw
  refine hplan.bind ?_
  rintro ⟨result, stack⟩ v v' hv
  cases result <;> exact .done hv

end Request

end LiveDoc
