import LiveDoc.Proofs.Runs

/-! # What evaluations are composed of

Evaluations are composed of a few small tasks and of further evaluations. A property that the small
tasks have is one of every evaluation if composed tasks inherit it, and if an evaluation inherits it
from those inside it.
-/

namespace LiveDoc

variable {σ α : Type}

namespace Stack

theorem holds_congr {s s' : Stack} (h : s'.map (·.path) = s.map (·.path)) (path : Path) :
    s'.holds path = s.holds path := by
  have hany (s : Stack) : s.holds path = (s.map (·.path)).any (· == path) := by
    rw [List.any_map]
    rfl
  rw [hany, hany, h]

theorem chainTo_congr {s s' : Stack} (h : s'.map (·.path) = s.map (·.path)) (path : Path) :
    s'.chainTo path = s.chainTo path := by
  rw [chainTo, chainTo, h]

end Stack

namespace Request

/-- The small tasks of a request have a property, and what is composed of such tasks inherits it. -/
structure Inherited (request : Request σ) (P : ∀ {α : Type}, Task σ α → Prop) : Prop where
  pure : ∀ {α : Type} (a : α), P (Pure.pure a)
  bind : ∀ {α β : Type} {t : Task σ α} {f : α → Task σ β}, P t → (∀ a, P (f a)) → P (t >>= f)
  /-- What waits may be looked at for its paths. -/
  stack : ∀ {α : Type} {f : Stack → Task σ α}, (∀ s, P (f s)) →
    (∀ s s', s'.map (·.path) = s.map (·.path) → f s' = f s) → P (Task.stack >>= f)
  taint : P (Task.onStack Stack.taint)
  tell : ∀ report, P (Task.onWorld fun w => { w with reports := w.reports ++ [report] })
  find : ∀ path, P (request.find path)
  keptResult : ∀ site, P (Request.keptResult site)

namespace Inherited

variable {request : Request σ} {P : ∀ {α : Type}, Task σ α → Prop}

section World

variable (pure : ∀ {α : Type} (a : α), P (Pure.pure a))
  (bind : ∀ {α β : Type} {t : Task σ α} {f : α → Task σ β}, P t → (∀ a, P (f a)) → P (t >>= f))
  (world : P Task.world) (record : ∀ slots, P (Task.onStack (Stack.record · slots)))

include pure bind world record

/-! For a property of tasks that look at the world and record what they have read -/

theorem find_of_world (path : Path) : P (request.find path) :=
  bind (record _) fun _ => bind world fun _ => pure _

theorem keptResult_of_world (site : Site) : P (Request.keptResult site) := by
  unfold Request.keptResult
  apply bind world
  intro w
  split
  · exact pure _
  · exact bind (record _) fun _ => pure _

end World

variable (h : request.Inherited P)

include h

theorem recover (error : EvalError) (path : Path) : P (request.recover error path) := by
  unfold Request.recover
  split
  · exact h.pure _
  · apply h.bind (h.tell _)
    intro _
    split
    · exact h.pure _
    · exact h.bind h.taint fun _ => h.pure _
    · exact h.bind h.taint fun _ => h.pure _

theorem remembered (site : Site) (fresh : Bool) : P (Request.remembered site fresh : Task σ _) := by
  unfold Request.remembered
  split
  · exact h.pure _
  · exact h.keptResult site

section Calls

variable (ask : ∀ name r, request.options.registry.get? name = some r → ∀ args, P (Task.ask r args))

include ask

theorem call (name : String) (args : List Value) : P (request.call name args) := by
  unfold Request.call
  split
  · exact h.pure _
  · next r hr =>
    apply h.bind (ask name r hr args)
    rintro (message | v) <;> exact h.pure _

theorem follow {evaluate : Evaluator σ} (he : ∀ site fresh, P (evaluate site fresh)) (p : Plan α) :
    P (request.follow evaluate p) := by
  induction p with
  | done result => exact h.pure _
  | find path next ih => exact h.bind (h.find path) ih
  | evaluate site fresh next ih =>
    unfold Request.follow
    apply h.bind (he site fresh)
    rintro (fault | v)
    · exact h.pure _
    · exact ih v
  | call name args next ih =>
    unfold Request.follow
    apply h.bind (h.call ask name args)
    rintro (fault | v)
    · exact h.pure _
    · exact ih v

end Calls

/-- The induction is on how many evaluations may still nest. -/
theorem evaluate (compute : ∀ {evaluate : Evaluator σ}, (∀ site fresh, P (evaluate site fresh)) →
      ∀ site, P (request.compute evaluate site))
    (left : Nat) (site : Site) (fresh : Bool) : P (request.evaluate left site fresh) := by
  induction left using of_remaining generalizing site fresh with
  | step left ih =>
    unfold Request.evaluate
    apply h.bind (h.remembered site fresh)
    rintro (_ | v)
    · apply h.stack
      · intro frames
        split
        · exact h.recover _ _
        · cases left with
          | zero => exact h.recover _ _
          | succ left =>
            apply h.bind (compute (ih left rfl) site)
            rintro (fault | v)
            · dsimp only
              split
              · exact h.pure _
              · exact h.recover _ _
            · exact h.pure _
      · intro frames frames' hpaths
        simp only [Stack.holds_congr hpaths, Stack.chainTo_congr hpaths]
    · exact h.pure _

end Inherited

end Request

end LiveDoc
