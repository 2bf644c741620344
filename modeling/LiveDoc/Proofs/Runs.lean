import LiveDoc.Tree

/-! # Whole runs

A computation ends with a result once the calls that it waits for are answered. What the host does
meanwhile is left open, so a statement on all runs holds for every behaviour of the host.
-/

namespace LiveDoc

variable {σ α β : Type}

namespace Step

/-- The step ends with a result in a world, for some answers to the calls that it waits for. -/
inductive Ends : Step σ α → α → World σ → Prop where
  | done (a : α) (w : World σ) : Ends (.done a w) a w
  | wait {call : Call σ} {next : Except String Value → World σ → Step σ α} {w w' : World σ}
    {answer : Except String Value} {asked : Nat} {host host' : σ} {a : α}
    (answered : (call.resolver.ask call.args asked host).1 = some answer)
    (rest : Ends (next answer { w with host := host' }) a w') : Ends (.wait call next w) a w'

theorem ends_done_iff {a b : α} {w w' : World σ} :
    (Step.done a w).Ends b w' ↔ b = a ∧ w' = w := by
  constructor
  · intro h
    cases h
    exact ⟨rfl, rfl⟩
  · rintro ⟨rfl, rfl⟩
    exact .done _ _

theorem ends_bind_iff {s : Step σ α} {f : α → World σ → Step σ β} {b : β} {w' : World σ} :
    (s.bind f).Ends b w' ↔ ∃ a w, s.Ends a w ∧ (f a w).Ends b w' := by
  induction s with
  | done a w =>
    constructor
    · intro h
      exact ⟨a, w, .done a w, h⟩
    · rintro ⟨a, w, hs, hf⟩
      cases hs
      exact hf
  | wait call next w ih =>
    constructor
    · intro h
      cases h with
      | wait answered rest =>
        obtain ⟨a, w, hs, hf⟩ := (ih _ _).1 rest
        exact ⟨a, w, .wait answered hs, hf⟩
    · rintro ⟨a, w, hs, hf⟩
      cases hs with
      | wait answered rest => exact .wait answered ((ih _ _).2 ⟨a, w, rest, hf⟩)

/-- A call that is asked goes on in the world of the asking, but for the host. -/
theorem ends_poll {call : Call σ} {next : Except String Value → World σ → Step σ α}
    {w w' : World σ} {a : α} (h : (call.poll next w).Ends a w') :
    ∃ answer asked host host', (call.resolver.ask call.args asked host).1 = some answer ∧
      (next answer { w with host := host' }).Ends a w' := by
  unfold Call.poll at h
  rcases hask : call.resolver.ask call.args call.asked w.host with ⟨answer, host⟩
  rw [hask] at h
  cases answer with
  | some answer => exact ⟨answer, call.asked, w.host, host, by rw [hask], h⟩
  | none =>
    cases h with
    | wait answered rest => exact ⟨_, _, _, _, answered, rest⟩

end Step

namespace Task

/-- The task ends with a result, a stack and a world. -/
def Runs (t : Task σ α) (stack : Stack) (w : World σ) (a : α) (stack' : Stack) (w' : World σ) :
    Prop :=
  (t stack w).Ends (a, stack') w'

variable {t : Task σ α} {stack stack' : Stack} {w w' : World σ}

theorem runs_pure_iff {a b : α} :
    (pure a : Task σ α).Runs stack w b stack' w' ↔ b = a ∧ stack' = stack ∧ w' = w := by
  unfold Runs
  rw [show (pure a : Task σ α) stack w = .done (a, stack) w from rfl, Step.ends_done_iff,
    Prod.mk.injEq, and_assoc]

theorem runs_bind_iff {f : α → Task σ β} {b : β} : (t >>= f).Runs stack w b stack' w' ↔
    ∃ a s v, t.Runs stack w a s v ∧ (f a).Runs s v b stack' w' := by
  unfold Runs
  rw [show (t >>= f) stack w = (t stack w).bind fun pair w => f pair.1 pair.2 w from rfl,
    Step.ends_bind_iff]
  constructor
  · rintro ⟨⟨a, s⟩, v, ht, hf⟩
    exact ⟨a, s, v, ht, hf⟩
  · rintro ⟨a, s, v, ht, hf⟩
    exact ⟨(a, s), v, ht, hf⟩

theorem runs_stack_iff {s : Stack} :
    (Task.stack : Task σ Stack).Runs stack w s stack' w' ↔ s = stack ∧ stack' = stack ∧ w' = w := by
  unfold Runs Task.stack
  rw [Step.ends_done_iff, Prod.mk.injEq, and_assoc]

theorem runs_onStack_iff {f : Stack → Stack} {u : Unit} :
    (Task.onStack f : Task σ Unit).Runs stack w u stack' w' ↔ stack' = f stack ∧ w' = w := by
  unfold Runs Task.onStack
  rw [Step.ends_done_iff, Prod.mk.injEq]
  simp

theorem runs_world_iff {v : World σ} :
    (Task.world : Task σ (World σ)).Runs stack w v stack' w' ↔
      v = w ∧ stack' = stack ∧ w' = w := by
  unfold Runs Task.world
  rw [Step.ends_done_iff, Prod.mk.injEq, and_assoc]

theorem runs_onWorld_iff {f : World σ → World σ} {u : Unit} :
    (Task.onWorld f).Runs stack w u stack' w' ↔ stack' = stack ∧ w' = f w := by
  unfold Runs Task.onWorld
  rw [Step.ends_done_iff, Prod.mk.injEq]
  simp

theorem runs_onCache_iff {f : Cache → Cache} {u : Unit} :
    (Task.onCache f).Runs stack w u stack' w' ↔
      stack' = stack ∧ w' = { w with cache := f w.cache } :=
  runs_onWorld_iff

/-- A resolver that is asked answers, and nothing but the host may have changed. -/
theorem runs_ask {resolver : Resolver σ} {args : List Value} {answer : Except String Value}
    (h : (Task.ask resolver args).Runs stack w answer stack' w') :
    stack' = stack ∧ (∃ host, w' = { w with host := host }) ∧
      ∃ asked host, (resolver.ask args asked host).1 = some answer := by
  obtain ⟨r, asked, host, host', hr, hn⟩ := Step.ends_poll h
  rw [Step.ends_done_iff, Prod.mk.injEq] at hn
  obtain ⟨⟨rfl, rfl⟩, rfl⟩ := hn
  exact ⟨rfl, ⟨host', rfl⟩, asked, host, hr⟩

end Task

/-! ## Pure resolvers -/

/-- Every answer of a resolver is the value of a function at the arguments. -/
def Resolver.Computes (r : Resolver σ) (f : List Value → Except String Value) : Prop :=
  ∀ args asked host answer, (r.ask args asked host).1 = some answer → answer = f args

/-- The resolvers are functions of their arguments. -/
def Options.Computes (options : Options σ) (f : String → List Value → Except String Value) : Prop :=
  ∀ name r, options.registry.get? name = some r → r.Computes (f name)

/-- The resolvers are functions of their arguments, and failures are told to nobody. -/
structure Options.Pure (options : Options σ) (f : String → List Value → Except String Value) :
    Prop where
  onError : options.onError = none
  computes : options.Computes f

/-- The world after the hook was told of a failure. -/
def World.told (w : World σ) (report : Report) : World σ :=
  { w with reports := w.reports ++ [report] }

namespace Request

variable {request : Request σ} {f : String → List Value → Except String Value}
  {stack stack' : Stack} {w w' : World σ}

/-- What a call of a resolver comes to. -/
def outcome (request : Request σ) (f : String → List Value → Except String Value) (name : String)
    (args : List Value) : Except Fault Value :=
  match request.options.registry.get? name with
  | none =>
    let available := Registry.names request.options.registry ++ Builtin.names
    .error (.new (.unknownResolver name (suggestions name available)))
  | some _ =>
    match f name args with
    | .ok v => .ok v
    | .error message => .error (.new (.resolver name message))

/-- What lies at a path of the document, under the context of the request. -/
def foundAt (request : Request σ) (w : World σ) (path : Path) : Found :=
  .ofLocated (locate w.document path (w.context.merge request.context))

theorem runs_find {path : Path} {found : Found}
    (h : (request.find path).Runs stack w found stack' w') :
    found = .ofLocated (locate w.document path (w.context.merge request.context)) ∧
      stack' = stack.record (walkReads path) ∧ w' = w := by
  simp only [find, Task.runs_bind_iff, Task.runs_onStack_iff, Task.runs_world_iff,
    Task.runs_pure_iff] at h
  obtain ⟨_, _, _, ⟨rfl, rfl⟩, _, _, _, ⟨rfl, rfl, rfl⟩, rfl, rfl, rfl⟩ := h
  exact ⟨rfl, rfl, rfl⟩

/-- A call changes nothing but the host. -/
theorem runs_call_frame {name : String} {args : List Value} {r : Except Fault Value}
    (h : (request.call name args).Runs stack w r stack' w') :
    stack' = stack ∧ ∃ host, w' = { w with host := host } := by
  unfold call at h
  cases hr : request.options.registry.get? name with
  | none =>
    simp only [hr, Task.runs_pure_iff] at h
    obtain ⟨-, rfl, rfl⟩ := h
    exact ⟨rfl, w'.host, rfl⟩
  | some resolver =>
    simp only [hr, Task.runs_bind_iff] at h
    obtain ⟨answer, s, v, hask, h⟩ := h
    obtain ⟨rfl, ⟨host, rfl⟩, -⟩ := Task.runs_ask hask
    cases answer <;>
      · obtain ⟨-, rfl, rfl⟩ := Task.runs_pure_iff.1 h
        exact ⟨rfl, host, rfl⟩

theorem runs_call_of_computes (hc : request.options.Computes f) {name : String} {args : List Value}
    {r : Except Fault Value} (h : (request.call name args).Runs stack w r stack' w') :
    r = request.outcome f name args ∧ stack' = stack ∧ ∃ host, w' = { w with host := host } := by
  refine ⟨?_, runs_call_frame h⟩
  unfold call at h
  unfold outcome
  cases hr : request.options.registry.get? name with
  | none =>
    simp only [hr, Task.runs_pure_iff] at h
    exact h.1
  | some resolver =>
    simp only [hr, Task.runs_bind_iff] at h
    obtain ⟨answer, s, v, hask, h⟩ := h
    obtain ⟨-, -, asked, host', hanswer⟩ := Task.runs_ask hask
    obtain rfl := hc name resolver hr args asked host' answer hanswer
    cases hf : f name args with
    | ok v =>
      simp only [hf, Task.runs_pure_iff] at h ⊢
      exact h.1
    | error message =>
      simp only [hf, Task.runs_pure_iff] at h ⊢
      exact h.1

theorem runs_call (hp : request.options.Pure f) {name : String} {args : List Value}
    {r : Except Fault Value} (h : (request.call name args).Runs stack w r stack' w') :
    r = request.outcome f name args ∧ stack' = stack ∧ ∃ host, w' = { w with host := host } :=
  runs_call_of_computes hp.computes h

/-! ## Plans that are followed -/

section Follow

variable {evaluate : Evaluator σ} {r : Except Fault α}

theorem runs_follow_find {path : Path} {next : Found → Plan α}
    (h : (request.follow evaluate (.find path next)).Runs stack w r stack' w') :
    (request.follow evaluate (next (request.foundAt w path))).Runs (stack.record (walkReads path)) w
      r stack' w' := by
  simp only [follow, Task.runs_bind_iff] at h
  obtain ⟨found, s, v, hfind, h⟩ := h
  obtain ⟨rfl, rfl, rfl⟩ := runs_find hfind
  exact h

/-- What is followed fails with an evaluation, or goes on with its value. -/
theorem runs_follow_evaluate {site : Site} {fresh : Bool} {next : Value → Plan α}
    (h : (request.follow evaluate (.evaluate site fresh next)).Runs stack w r stack' w') :
    (∃ fault, r = .error fault ∧ (evaluate site fresh).Runs stack w (.error fault) stack' w') ∨
      ∃ value s v, (evaluate site fresh).Runs stack w (.ok value) s v ∧
        (request.follow evaluate (next value)).Runs s v r stack' w' := by
  simp only [follow, Task.runs_bind_iff] at h
  obtain ⟨q, s, v, hsite, h⟩ := h
  cases q with
  | error fault =>
    obtain ⟨rfl, rfl, rfl⟩ := Task.runs_pure_iff.1 h
    exact .inl ⟨fault, rfl, hsite⟩
  | ok value => exact .inr ⟨value, s, v, hsite, h⟩

theorem runs_follow_call {name : String} {args : List Value} {next : Value → Plan α}
    (h : (request.follow evaluate (.call name args next)).Runs stack w r stack' w') :
    (∃ fault, r = .error fault ∧ (request.call name args).Runs stack w (.error fault) stack' w') ∨
      ∃ value s v, (request.call name args).Runs stack w (.ok value) s v ∧
        (request.follow evaluate (next value)).Runs s v r stack' w' := by
  simp only [follow, Task.runs_bind_iff] at h
  obtain ⟨q, s, v, hcall, h⟩ := h
  cases q with
  | error fault =>
    obtain ⟨rfl, rfl, rfl⟩ := Task.runs_pure_iff.1 h
    exact .inl ⟨fault, rfl, hcall⟩
  | ok value => exact .inr ⟨value, s, v, hcall, h⟩

end Follow

/-! ## Evaluations -/

/-- The ways in which a failure ends: passed on, or with a value in the place of the result. -/
inductive Recovered (request : Request σ) (error : EvalError) (path : Path) (stack : Stack)
    (w : World σ) : Except Fault Value → Stack → World σ → Prop where
  | unheard (absent : request.options.onError = none) :
    Recovered request error path stack w (.error ⟨error, true⟩) stack w
  | raised (present : request.options.onError ≠ none) :
    Recovered request error path stack w (.error ⟨error, true⟩) stack (w.told ⟨error, path⟩)
  | replaced (present : request.options.onError ≠ none) (value : Value) :
    Recovered request error path stack w (.ok value) stack.taint (w.told ⟨error, path⟩)

theorem runs_recover_cases {error : EvalError} {path : Path} {r : Except Fault Value}
    (h : (request.recover error path).Runs stack w r stack' w') :
    Recovered request error path stack w r stack' w' := by
  unfold recover at h
  cases hn : request.options.onError with
  | none =>
    simp only [hn, Task.runs_pure_iff] at h
    obtain ⟨rfl, rfl, rfl⟩ := h
    exact .unheard hn
  | some hook =>
    have hsome : request.options.onError ≠ none := by simp [hn]
    simp only [hn, Task.runs_bind_iff, Task.runs_onWorld_iff] at h
    obtain ⟨_, _, _, ⟨rfl, rfl⟩, h⟩ := h
    cases ha : hook error path with
    | raise =>
      simp only [ha, Task.runs_pure_iff] at h
      obtain ⟨rfl, rfl, rfl⟩ := h
      exact .raised hsome
    | fallback =>
      simp only [ha, Task.runs_bind_iff, Task.runs_onStack_iff, Task.runs_pure_iff] at h
      obtain ⟨_, _, _, ⟨rfl, rfl⟩, rfl, rfl, rfl⟩ := h
      exact .replaced hsome _
    | substitute value =>
      simp only [ha, Task.runs_bind_iff, Task.runs_onStack_iff, Task.runs_pure_iff] at h
      obtain ⟨_, _, _, ⟨rfl, rfl⟩, rfl, rfl, rfl⟩ := h
      exact .replaced hsome value

/-- Without a hook a failure is passed on as it is. -/
theorem Recovered.of_none (hn : request.options.onError = none) {error : EvalError} {path : Path}
    {r : Except Fault Value} (h : Recovered request error path stack w r stack' w') :
    r = .error ⟨error, true⟩ ∧ stack' = stack ∧ w' = w := by
  cases h with
  | unheard => exact ⟨rfl, rfl, rfl⟩
  | raised present => exact absurd hn present
  | replaced present => exact absurd hn present

theorem runs_compute {evaluate : Evaluator σ} {site : Site} {r : Except Fault Value}
    (h : (request.compute evaluate site).Runs stack w r stack' w') :
    ∃ s v, (request.follow evaluate (Plan.render site)).Runs (.enter site.path :: stack)
        { w with cache := w.cache.begin } r s v ∧
      stack' = Stack.pop s ∧
      w' = { v with cache := store site w.cache.epoch r s (v.cache.finish w.cache.epoch) } := by
  simp only [compute, Task.runs_bind_iff, Task.runs_onStack_iff, Task.runs_world_iff,
    Task.runs_onCache_iff, Task.runs_stack_iff, Task.runs_pure_iff] at h
  obtain ⟨_, _, _, ⟨rfl, rfl⟩, _, _, _, ⟨rfl, rfl, rfl⟩, _, _, _, ⟨rfl, rfl⟩, r', s, v, hf,
    _, _, _, ⟨rfl, rfl, rfl⟩, _, _, _, ⟨rfl, rfl⟩, _, _, _, ⟨rfl, rfl⟩, rfl, rfl, rfl⟩ := h
  exact ⟨_, _, hf, rfl, rfl⟩

theorem runs_remembered {site : Site} {fresh : Bool} {known : Option Value}
    (h : (remembered site fresh).Runs stack w known stack' w') : w' = w ∧
      ((∃ entry, w.cache.lookup (keyOf site) = some entry ∧ fresh = false ∧
          known = some entry.value ∧ stack' = stack.record entry.reads) ∨
        (fresh = true ∨ w.cache.lookup (keyOf site) = none) ∧ known = none ∧ stack' = stack) := by
  unfold remembered at h
  cases fresh with
  | true =>
    simp only [if_true, Task.runs_pure_iff] at h
    obtain ⟨rfl, rfl, rfl⟩ := h
    exact ⟨rfl, .inr ⟨.inl rfl, rfl, rfl⟩⟩
  | false =>
    simp only [Bool.false_eq_true, if_false, keptResult, Task.runs_bind_iff, Task.runs_world_iff,
      and_assoc, exists_and_left, exists_eq_left] at h
    cases hl : w.cache.lookup (keyOf site) with
    | none =>
      simp only [hl, Task.runs_pure_iff] at h
      obtain ⟨rfl, rfl, rfl⟩ := h
      exact ⟨rfl, .inr ⟨.inr rfl, rfl, rfl⟩⟩
    | some entry =>
      simp only [hl, Task.runs_bind_iff, Task.runs_onStack_iff, Task.runs_pure_iff] at h
      obtain ⟨_, _, _, ⟨rfl, rfl⟩, rfl, rfl, rfl⟩ := h
      exact ⟨rfl, .inl ⟨entry, rfl, rfl, rfl, rfl⟩⟩

/-- The ways in which an evaluation ends, whatever the hook makes of failures. -/
inductive Judged (request : Request σ) (left : Nat) (site : Site) (fresh : Bool) (stack : Stack)
    (w : World σ) : Except Fault Value → Stack → World σ → Prop where
  | kept {entry : CacheEntry} (known : w.cache.lookup (keyOf site) = some entry) (h : fresh = false) :
    Judged request left site fresh stack w (.ok entry.value) (stack.record entry.reads) w
  | cycle (unknown : fresh = true ∨ w.cache.lookup (keyOf site) = none)
    (waiting : stack.holds site.path = true) {r : Except Fault Value} {stack' : Stack} {w' : World σ}
    (recovered : Recovered request (.cycle (stack.chainTo site.path)) site.path stack w r stack' w') :
    Judged request left site fresh stack w r stack' w'
  | tooDeep (unknown : fresh = true ∨ w.cache.lookup (keyOf site) = none)
    (free : stack.holds site.path = false) (spent : left = 0) {r : Except Fault Value}
    {stack' : Stack} {w' : World σ}
    (recovered : Recovered request (.depth request.options.maxDepth site.path) site.path stack w r
      stack' w') : Judged request left site fresh stack w r stack' w'
  | computed (unknown : fresh = true ∨ w.cache.lookup (keyOf site) = none)
    (free : stack.holds site.path = false) {left' : Nat} (remaining : left = left' + 1)
    {r : Except Fault Value} {stack' : Stack} {w' : World σ}
    (run : (request.compute (request.evaluate left') site).Runs stack w r stack' w')
    (passed : ∀ fault, r = .error fault → fault.reported = true) :
    Judged request left site fresh stack w r stack' w'
  | failed (unknown : fresh = true ∨ w.cache.lookup (keyOf site) = none)
    (free : stack.holds site.path = false) {left' : Nat} (remaining : left = left' + 1)
    {error : EvalError} {s : Stack} {v : World σ}
    (run : (request.compute (request.evaluate left') site).Runs stack w (.error ⟨error, false⟩) s v)
    {r : Except Fault Value} {stack' : Stack} {w' : World σ}
    (recovered : Recovered request error site.path s v r stack' w') :
    Judged request left site fresh stack w r stack' w'

theorem runs_evaluate_cases {left : Nat} {site : Site} {fresh : Bool} {r : Except Fault Value}
    (h : (request.evaluate left site fresh).Runs stack w r stack' w') :
    Judged request left site fresh stack w r stack' w' := by
  unfold evaluate at h
  rw [Task.runs_bind_iff] at h
  obtain ⟨known, s, v, hk, h⟩ := h
  obtain ⟨rfl, ⟨entry, hl, rfl, rfl, rfl⟩ | ⟨hu, rfl, rfl⟩⟩ := runs_remembered hk
  · simp only [Task.runs_pure_iff] at h
    obtain ⟨rfl, rfl, rfl⟩ := h
    exact .kept hl rfl
  · simp only [Task.runs_bind_iff, Task.runs_stack_iff, and_assoc, exists_and_left,
      exists_eq_left] at h
    cases hh : Stack.holds s site.path with
    | true =>
      simp only [hh, if_true] at h
      exact .cycle hu hh (runs_recover_cases h)
    | false =>
      simp only [hh, Bool.false_eq_true, if_false] at h
      cases left with
      | zero => exact .tooDeep hu hh rfl (runs_recover_cases h)
      | succ left =>
        simp only [Task.runs_bind_iff] at h
        obtain ⟨r', s', v', hc, h⟩ := h
        cases r' with
        | ok value =>
          obtain ⟨rfl, rfl, rfl⟩ := Task.runs_pure_iff.1 h
          exact .computed hu hh rfl hc nofun
        | error fault =>
          obtain ⟨error, reported⟩ := fault
          cases reported with
          | true =>
            obtain ⟨rfl, rfl, rfl⟩ := Task.runs_pure_iff.1 h
            refine .computed hu hh rfl hc fun fault hfault => ?_
            cases hfault
            rfl
          | false => exact .failed hu hh rfl hc (runs_recover_cases h)

/-- The ways in which an evaluation ends when there is no hook. -/
inductive Evaluated (request : Request σ) (left : Nat) (site : Site) (fresh : Bool) (stack : Stack)
    (w : World σ) : Except Fault Value → Stack → World σ → Prop where
  | kept {entry : CacheEntry} (known : w.cache.lookup (keyOf site) = some entry) (h : fresh = false) :
    Evaluated request left site fresh stack w (.ok entry.value) (stack.record entry.reads) w
  | cycle (unknown : fresh = true ∨ w.cache.lookup (keyOf site) = none)
    (waiting : stack.holds site.path = true) :
    Evaluated request left site fresh stack w (.error ⟨.cycle (stack.chainTo site.path), true⟩)
      stack w
  | tooDeep (unknown : fresh = true ∨ w.cache.lookup (keyOf site) = none)
    (free : stack.holds site.path = false) (spent : left = 0) :
    Evaluated request left site fresh stack w
      (.error ⟨.depth request.options.maxDepth site.path, true⟩) stack w
  | computed (unknown : fresh = true ∨ w.cache.lookup (keyOf site) = none)
    (free : stack.holds site.path = false) {left' : Nat} (remaining : left = left' + 1)
    {r : Except Fault Value} {stack' : Stack} {w' : World σ}
    (run : (request.compute (request.evaluate left') site).Runs stack w r stack' w') :
    Evaluated request left site fresh stack w (r.mapError fun fault => ⟨fault.error, true⟩) stack' w'

theorem runs_evaluate (hn : request.options.onError = none) {left : Nat} {site : Site}
    {fresh : Bool} {r : Except Fault Value}
    (h : (request.evaluate left site fresh).Runs stack w r stack' w') :
    Evaluated request left site fresh stack w r stack' w' := by
  cases runs_evaluate_cases h with
  | kept known hfresh => exact .kept known hfresh
  | cycle unknown waiting recovered =>
    obtain ⟨rfl, rfl, rfl⟩ := recovered.of_none hn
    exact .cycle unknown waiting
  | tooDeep unknown free spent recovered =>
    obtain ⟨rfl, rfl, rfl⟩ := recovered.of_none hn
    exact .tooDeep unknown free spent
  | computed unknown free remaining run passed =>
    have hr : r = r.mapError fun fault => ⟨fault.error, true⟩ := by
      cases r with
      | ok value => rfl
      | error fault => exact congrArg Except.error (congrArg (Fault.mk fault.error) (passed fault rfl))
    rw [hr]
    exact .computed unknown free remaining run
  | failed unknown free remaining run recovered =>
    obtain ⟨rfl, rfl, rfl⟩ := recovered.of_none hn
    exact .computed unknown free remaining run

/-- What holds of the evaluations with a number of others left to nest if it does with one less
holds of all. -/
theorem of_remaining {P : Nat → Prop}
    (step : ∀ left, (∀ left', left = left' + 1 → P left') → P left) (left : Nat) : P left := by
  induction left with
  | zero => exact step 0 fun left' h => nomatch h
  | succ left ih =>
    refine step (left + 1) fun left' h => ?_
    obtain rfl := Nat.succ.inj h
    exact ih

/-- What a read makes of the result of its plan. -/
def conclude (request : Request σ) : Except Fault (Option Value) → ReadResult
  | .error fault => .error fault.error
  | .ok v => .ok (v.or request.fallback)

theorem ends_read {path : Path} {fresh : Bool} {r : ReadResult}
    (h : (request.read path fresh w).Ends r w') : ∃ result stack',
      (request.follow (request.evaluate request.options.maxDepth) (Plan.resolve fresh path)).Runs
        [] w result stack' w' ∧ r = request.conclude result := by
  unfold read at h
  obtain ⟨⟨result, stack'⟩, v, hrun, h⟩ := Step.ends_bind_iff.1 h
  cases result with
  | error fault =>
    obtain ⟨rfl, rfl⟩ := Step.ends_done_iff.1 h
    exact ⟨_, stack', hrun, rfl⟩
  | ok value =>
    obtain ⟨rfl, rfl⟩ := Step.ends_done_iff.1 h
    exact ⟨_, stack', hrun, rfl⟩

end Request

end LiveDoc
