import LiveDoc.Proofs.ComposedTasks

/-! # Reads come to an end

A computation ends when it is polled again and again, in whatever world, if every resolver that it
asks answers in the end.
-/

namespace LiveDoc

variable {σ α β : Type}

/-- Every call is answered once it was asked often enough, whatever the host does. -/
def Resolver.Answers (r : Resolver σ) : Prop :=
  ∀ args, ∃ enough, ∀ asked host, enough ≤ asked → (r.ask args asked host).1.isSome = true

def Options.Answers (options : Options σ) : Prop :=
  ∀ name r, options.registry.get? name = some r → r.Answers

namespace Step

/-- Only finitely many polls are left, in whatever worlds they take place. -/
inductive Finishes : Step σ α → Prop where
  | done (a : α) (w : World σ) : Finishes (.done a w)
  | wait {call : Call σ} {next : Except String Value → World σ → Step σ α} {w : World σ}
    (polled : ∀ w', (call.poll next w').Finishes) : Finishes (.wait call next w)

end Step

theorem Call.poll_bind (call : Call σ) (next : Except String Value → World σ → Step σ α)
    (f : α → World σ → Step σ β) (w : World σ) :
    call.poll (fun r w => (next r w).bind f) w = (call.poll next w).bind f := by
  unfold poll
  rcases call.resolver.ask call.args call.asked w.host with ⟨_ | answer, host⟩ <;> rfl

theorem Step.Finishes.bind {s : Step σ α} {f : α → World σ → Step σ β} (hs : s.Finishes)
    (hf : ∀ a w, (f a w).Finishes) : (s.bind f).Finishes := by
  induction hs with
  | done a w => exact hf a w
  | @wait call next w _ ih =>
    refine .wait fun w' => ?_
    rw [Call.poll_bind]
    exact ih w'

theorem Resolver.Answers.finishes {r : Resolver σ} (h : r.Answers) (args : List Value)
    {next : Except String Value → World σ → Step σ α} (hn : ∀ answer w, (next answer w).Finishes)
    (w : World σ) : ((Call.mk r args 0).poll next w).Finishes := by
  obtain ⟨enough, he⟩ := h args
  -- the induction is on how often the call may still be asked in vain
  have hleft (left asked : Nat) (hl : enough ≤ asked + left) (w : World σ) :
      ((Call.mk r args asked).poll next w).Finishes := by
    induction left generalizing asked w with
    | zero =>
      have ha := he asked w.host hl
      unfold Call.poll
      rcases hask : r.ask args asked w.host with ⟨_ | answer, host⟩
      · rw [hask] at ha
        cases ha
      · exact hn answer _
    | succ left ih =>
      unfold Call.poll
      rcases r.ask args asked w.host with ⟨_ | answer, host⟩
      · exact .wait fun w' => ih (asked + 1) (by omega) w'
      · exact hn answer _
  exact hleft enough 0 (by omega) w

/-! ## Properties of composed computations -/

/-- A property that computations have which have ended, and that goes over to what is composed of them. -/
structure Step.Inherited (P : ∀ {α : Type}, Step σ α → Prop) : Prop where
  done : ∀ {α : Type} (a : α) (w : World σ), P (.done a w)
  bind : ∀ {α β : Type} {s : Step σ α} {f : α → World σ → Step σ β}, P s → (∀ a w, P (f a w)) →
    P (s.bind f)

theorem Step.inherited_finishes : Step.Inherited (@Step.Finishes σ) where
  done := .done
  bind := .bind

/-- The steps of a task have a property, from every stack and world. -/
def Task.Has (P : ∀ {α : Type}, Step σ α → Prop) (t : Task σ α) : Prop :=
  ∀ stack w, P (t stack w)

section Has

variable {P : ∀ {α : Type}, Step σ α → Prop} (hP : Step.Inherited P)

include hP

namespace Task

theorem has_pure (a : α) : (pure a : Task σ α).Has P :=
  fun stack w => hP.done (a, stack) w

theorem has_bind {t : Task σ α} {f : α → Task σ β} (ht : t.Has P) (hf : ∀ a, (f a).Has P) :
    (t >>= f).Has P :=
  fun stack w => hP.bind (ht stack w) fun pair w => hf pair.1 pair.2 w

theorem has_stack : (Task.stack : Task σ Stack).Has P :=
  fun stack w => hP.done (stack, stack) w

theorem has_onStack (f : Stack → Stack) : (Task.onStack f : Task σ Unit).Has P :=
  fun stack w => hP.done ((), f stack) w

theorem has_world : (Task.world : Task σ (World σ)).Has P :=
  fun stack w => hP.done (w, stack) w

theorem has_onWorld (f : World σ → World σ) : (Task.onWorld f).Has P :=
  fun stack w => hP.done ((), stack) (f w)

end Task

namespace Request

variable {request : Request σ}

theorem inherited_has : request.Inherited (Task.Has P) where
  pure := Task.has_pure hP
  bind := Task.has_bind hP
  stack hf _ := Task.has_bind hP (Task.has_stack hP) hf
  taint := Task.has_onStack hP _
  tell _ := Task.has_onWorld hP _
  find := Inherited.find_of_world (Task.has_pure hP) (Task.has_bind hP) (Task.has_world hP)
    fun _ => Task.has_onStack hP _
  keptResult := Inherited.keptResult_of_world (Task.has_pure hP) (Task.has_bind hP)
    (Task.has_world hP) fun _ => Task.has_onStack hP _

variable (hask : ∀ name r, request.options.registry.get? name = some r →
  ∀ args, (Task.ask r args).Has P)

include hask

theorem has_follow {evaluate : Evaluator σ} (he : ∀ site fresh, (evaluate site fresh).Has P)
    (p : Plan α) : (request.follow evaluate p).Has P :=
  (inherited_has hP).follow hask he p

theorem has_compute {evaluate : Evaluator σ} (he : ∀ site fresh, (evaluate site fresh).Has P)
    (site : Site) : (request.compute evaluate site).Has P :=
  Task.has_bind hP (Task.has_onStack hP _) fun _ => Task.has_bind hP (Task.has_world hP) fun _ =>
    Task.has_bind hP (Task.has_onWorld hP _) fun _ =>
      Task.has_bind hP (has_follow hP hask he _) fun _ => Task.has_bind hP (Task.has_stack hP) fun _ =>
        Task.has_bind hP (Task.has_onStack hP _) fun _ =>
          Task.has_bind hP (Task.has_onWorld hP _) fun _ => Task.has_pure hP _

theorem has_evaluate (left : Nat) (site : Site) (fresh : Bool) :
    (request.evaluate left site fresh).Has P :=
  (inherited_has hP).evaluate (has_compute hP hask) left site fresh

theorem has_read (path : Path) (fresh : Bool) (w : World σ) : P (request.read path fresh w) := by
  apply hP.bind (has_follow hP hask (has_evaluate hP hask _) _ [] w)
  rintro ⟨result, stack⟩ w
  cases result <;> exact hP.done _ _

end Request

end Has

/-! ## Reads that end -/

/-- The task ends from every stack and world. -/
def Task.Finishes (t : Task σ α) : Prop :=
  t.Has (@Step.Finishes σ)

namespace Request

variable {request : Request σ}

theorem finishes_ask (ha : request.options.Answers) (name : String) (r : Resolver σ)
    (hr : request.options.registry.get? name = some r) (args : List Value) :
    (Task.ask r args).Finishes :=
  fun stack w => (ha name r hr).finishes args (fun answer w => .done (answer, stack) w) w

/-- Every read ends. -/
theorem finishes_read (ha : request.options.Answers) (path : Path) (fresh : Bool) (w : World σ) :
    (request.read path fresh w).Finishes :=
  has_read Step.inherited_finishes (finishes_ask ha) path fresh w

/-- Where there are no resolvers, every read ends at once. -/
theorem read_at_once (hn : ∀ name, request.options.registry.get? name = none) (path : Path)
    (fresh : Bool) (w : World σ) : ∃ r w', request.read path fresh w = .done r w' := by
  have hP : Step.Inherited fun {α} (s : Step σ α) => ∃ a w', s = .done a w' := by
    constructor
    · exact fun a w => ⟨a, w, rfl⟩
    · rintro α β s f ⟨a, w, rfl⟩ hf
      exact hf a w
  apply has_read hP
  intro name r hr
  rw [hn] at hr
  cases hr

end Request

end LiveDoc
