import LiveDoc.Proofs.Runs

/-! # Suspended computations

A computation that waits for a resolver goes on in a world that others have changed meanwhile. It is
safe if it rests in a promised world whenever it is given one, and then it needs no other promise.
-/

namespace LiveDoc

variable {σ α β : Type} {I : World σ → Prop}

namespace Step

/-- Whenever the step rests, its world is as promised and has the context that the step was given,
whatever promised worlds it is given; and what it ends with satisfies a condition. -/
inductive Safe (I : World σ → Prop) (Q : α → Prop) : Context → Step σ α → Prop where
  | done {a : α} {w : World σ} (world : I w) (result : Q a) : Safe I Q w.context (.done a w)
  | wait {call : Call σ} {next : Except String Value → World σ → Step σ α} {w : World σ}
    (world : I w)
    (rest : ∀ answer asked host w', (call.resolver.ask call.args asked host).1 = some answer →
      I w' → Safe I Q w'.context (next answer w')) :
    Safe I Q w.context (.wait call next w)

variable {P Q : α → Prop} {context : Context} {s : Step σ α}

theorem Safe.world (h : s.Safe I Q context) : I s.world ∧ s.world.context = context := by
  cases h with
  | done world => exact ⟨world, rfl⟩
  | wait world => exact ⟨world, rfl⟩

theorem Safe.bind {R : β → Prop} {f : α → World σ → Step σ β} (hs : s.Safe I P context)
    (hf : ∀ a w, P a → I w → (f a w).Safe I R w.context) : (s.bind f).Safe I R context := by
  induction hs with
  | done world result => exact hf _ _ result world
  | wait world _ ih => exact .wait world ih

/-- A call that is asked goes on with its answer, or it keeps waiting. -/
theorem safe_poll (hI : ∀ w host, I w → I { w with host := host }) {call : Call σ}
    {next : Except String Value → World σ → Step σ α}
    (rest : ∀ answer asked host w', (call.resolver.ask call.args asked host).1 = some answer →
      I w' → (next answer w').Safe I Q w'.context)
    {w : World σ} (hw : I w) : (call.poll next w).Safe I Q w.context := by
  have hworld (host : σ) : I { w with host := host } := hI w host hw
  unfold Call.poll
  rcases hask : call.resolver.ask call.args call.asked w.host with ⟨_ | answer, host⟩
  · exact .wait (hworld host) rest
  · exact rest answer call.asked w.host _ (by rw [hask]) (hworld host)

end Step

/-- What is left of a computation is safe in whatever promised worlds it goes on. -/
def Progress.Safe (I : World σ → Prop) : Progress σ α → Prop
  | .finished _ => True
  | .waiting call next => ∀ answer asked host w,
      (call.resolver.ask call.args asked host).1 = some answer → I w →
      (next answer w).Safe I (fun _ => True) w.context

namespace Progress

theorem safe_ofStep {context : Context} {s : Step σ α} (h : s.Safe I (fun _ => True) context) :
    (ofStep s).Safe I := by
  cases h with
  | done => exact trivial
  | wait _ rest => exact rest

theorem Safe.poll (hI : ∀ w host, I w → I { w with host := host }) {p : Progress σ α}
    (h : p.Safe I) {w : World σ} (hw : I w) : (p.poll w).Safe I (fun _ => True) w.context := by
  cases p with
  | finished result => exact .done hw trivial
  | waiting call next => exact Step.safe_poll hI h hw

theorem safe_of_result {p : Progress σ α} (h : p.result?.isSome = true) : p.Safe I := by
  cases p with
  | finished result => exact trivial
  | waiting call next => cases h

end Progress

/-- The task is safe from every stack and every promised world. -/
def Task.Safe (I : World σ → Prop) (Q : α → Prop) (t : Task σ α) : Prop :=
  ∀ stack w, I w → (t stack w).Safe I (fun pair => Q pair.1) w.context

namespace Task

variable {P Q : α → Prop}

theorem safe_pure {a : α} (h : Q a) : (pure a : Task σ α).Safe I Q :=
  fun _ _ hw => .done hw h

theorem Safe.bind {R : β → Prop} {t : Task σ α} {f : α → Task σ β} (ht : t.Safe I P)
    (hf : ∀ a, P a → (f a).Safe I R) : (t >>= f).Safe I R :=
  fun stack w hw => (ht stack w hw).bind fun pair w ha hw => hf pair.1 ha pair.2 w hw

theorem safe_stack : (Task.stack : Task σ Stack).Safe I fun _ => True :=
  fun _ _ hw => .done hw trivial

theorem safe_onStack (f : Stack → Stack) : (Task.onStack f : Task σ Unit).Safe I fun _ => True :=
  fun _ _ hw => .done hw trivial

theorem safe_world : (Task.world : Task σ (World σ)).Safe I I :=
  fun _ _ hw => .done hw hw

theorem safe_onCache {f : Cache → Cache} (h : ∀ w, I w → I { w with cache := f w.cache }) :
    (Task.onCache f : Task σ Unit).Safe I fun _ => True :=
  fun _ w hw => .done (h w hw) trivial

theorem safe_ask (hI : ∀ w host, I w → I { w with host := host }) {r : Resolver σ}
    {args : List Value} {Q : Except String Value → Prop}
    (hQ : ∀ answer asked host, (r.ask args asked host).1 = some answer → Q answer) :
    (Task.ask r args).Safe I Q := by
  intro stack w hw
  refine Step.safe_poll hI ?_ hw
  intro answer asked host w' ha hw'
  exact .done hw' (hQ answer asked host ha)

end Task

end LiveDoc
