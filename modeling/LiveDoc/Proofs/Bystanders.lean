import LiveDoc.Proofs.Lockstep
import LiveDoc.Proofs.Logbook

/-! # What those that wait have read

An evaluation does the same whatever the evaluations that wait for it have read so far. It only looks at
which they are, and whether their results may still be kept.
-/

namespace LiveDoc

variable {σ α β : Type}

namespace Frame

/-- What of a frame decides about runs in it: everything but its reads. -/
def duty (f : Frame) : Path × Bool :=
  (f.path, f.keepable)

end Frame

namespace Stack

/-- Stacks that begin with the same number of equal frames and below differ at most in what was read. -/
inductive Like : Nat → Stack → Stack → Prop where
  | waiting {s s' : Stack} (same : s.map Frame.duty = s'.map Frame.duty) : Like 0 s s'
  | frame (f : Frame) {n : Nat} {s s' : Stack} (rest : Like n s s') : Like (n + 1) (f :: s) (f :: s')

variable {n : Nat} {s s' : Stack}

theorem Like.map_path (h : Like n s s') : s.map (·.path) = s'.map (·.path) := by
  induction h with
  | waiting same =>
    have hpath (s : Stack) : s.map (·.path) = (s.map Frame.duty).map Prod.fst := by
      rw [List.map_map]
      rfl
    rw [hpath, hpath, same]
  | frame f _ ih => rw [List.map_cons, List.map_cons, ih]

theorem map_duty_record (s : Stack) (slots : List Path) :
    (s.record slots).map Frame.duty = s.map Frame.duty := by
  cases s <;> rfl

theorem Like.record (h : Like n s s') (slots : List Path) : Like n (s.record slots) (s'.record slots) := by
  cases h with
  | waiting same => exact .waiting (by rw [map_duty_record, map_duty_record, same])
  | frame f rest => exact .frame _ rest

theorem Like.taint (h : Like n s s') : Like n s.taint s'.taint := by
  induction h with
  | waiting same =>
    have hduty (s : Stack) : s.taint.map Frame.duty =
        (s.map Frame.duty).map fun d => (d.1, false) := by
      rw [Stack.taint, List.map_map, List.map_map]
      rfl
    exact .waiting (by rw [hduty, hduty, same])
  | frame f _ ih => exact .frame _ ih

/-- A frame that both have on top is absorbed alike. -/
theorem Like.pop (h : Like (n + 1) s s') : Like n (Stack.pop s) (Stack.pop s') := by
  cases h with
  | @frame f _ s s' rest =>
    cases rest with
    | frame g rest => exact .frame _ rest
    | waiting same =>
      cases s with
      | nil =>
        obtain rfl := List.map_eq_nil_iff.1 same.symm
        exact .waiting rfl
      | cons g rest =>
        obtain ⟨g', rest', rfl, hg, hrest⟩ := List.map_eq_cons_iff.1 same.symm
        obtain ⟨hpath, hkeepable⟩ := Prod.mk.inj hg
        refine .waiting ?_
        simp only [Stack.pop, List.map_cons, Frame.duty, Frame.absorb, Frame.record, hpath, hkeepable]
        exact congrArg _ hrest.symm

end Stack

/-! ## Steps with results that match -/

/-- Steps that end in the same world with results that are related, or wait for the same call and go on
so. -/
inductive Step.Matches (R : α → α → Prop) : Step σ α → Step σ α → Prop where
  | done {a a' : α} (results : R a a') (w : World σ) : Step.Matches R (.done a w) (.done a' w)
  | wait {call : Call σ} {next next' : Except String Value → World σ → Step σ α} {w : World σ}
    (rest : ∀ answer v, Step.Matches R (next answer v) (next' answer v)) :
    Step.Matches R (.wait call next w) (.wait call next' w)

namespace Step

variable {R : α → α → Prop} {Q : β → β → Prop} {s s' : Step σ α}

theorem Matches.bind {f f' : α → World σ → Step σ β} (h : s.Matches R s')
    (hf : ∀ a a' w, R a a' → (f a w).Matches Q (f' a' w)) : (s.bind f).Matches Q (s'.bind f') := by
  induction h with
  | done results w => exact hf _ _ w results
  | wait _ ih => exact .wait ih

theorem matches_poll {call : Call σ} {next next' : Except String Value → World σ → Step σ α}
    (rest : ∀ answer v, (next answer v).Matches R (next' answer v)) (w : World σ) :
    (call.poll next w).Matches R (call.poll next' w) := by
  unfold Call.poll
  rcases call.resolver.ask call.args call.asked w.host with ⟨_ | answer, host⟩
  · exact .wait rest
  · exact rest answer _

theorem Matches.ends (h : s.Matches R s') {a : α} {w' : World σ} (he : s.Ends a w') :
    ∃ a', R a a' ∧ s'.Ends a' w' := by
  induction he generalizing s' with
  | done a w =>
    cases h with
    | done results => exact ⟨_, results, .done _ _⟩
  | wait answered _ ih =>
    cases h with
    | wait rest =>
      obtain ⟨a', hresults, he⟩ := ih (rest _ _)
      exact ⟨a', hresults, .wait answered he⟩

end Step

/-! ## Tasks that do not look -/

/-- The task does the same on stacks that are alike. -/
def Task.Oblivious (t : Task σ α) : Prop :=
  ∀ n s s' w, Stack.Like n s s' →
    (t s w).Matches (fun p p' => p.1 = p'.1 ∧ Stack.Like n p.2 p'.2) (t s' w)

namespace Task

theorem oblivious_pure (a : α) : (pure a : Task σ α).Oblivious :=
  fun _ _ _ w hs => .done ⟨rfl, hs⟩ w

theorem Oblivious.bind {t : Task σ α} {f : α → Task σ β} (ht : t.Oblivious)
    (hf : ∀ a, (f a).Oblivious) : (t >>= f).Oblivious := by
  intro n s s' w hs
  apply (ht n s s' w hs).bind
  rintro ⟨a, s⟩ ⟨a', s'⟩ w ⟨rfl, hs⟩
  exact hf a n s s' w hs

theorem oblivious_onStack {f : Stack → Stack} (hf : ∀ n s s', Stack.Like n s s' → Stack.Like n (f s) (f s')) :
    (Task.onStack f : Task σ Unit).Oblivious :=
  fun n s s' w hs => .done ⟨rfl, hf n s s' hs⟩ w

theorem oblivious_world : (Task.world : Task σ (World σ)).Oblivious :=
  fun _ _ _ w hs => .done ⟨rfl, hs⟩ w

theorem oblivious_onWorld (f : World σ → World σ) : (Task.onWorld f).Oblivious :=
  fun _ _ _ w hs => .done ⟨rfl, hs⟩ (f w)

theorem oblivious_ask (r : Resolver σ) (args : List Value) : (Task.ask r args).Oblivious :=
  fun _ _ _ w hs => Step.matches_poll (fun _ v => .done ⟨rfl, hs⟩ v) w

/-- What waits decides what is done next only by the paths of its frames. -/
theorem oblivious_stack {f : Stack → Task σ α} (hf : ∀ s, (f s).Oblivious)
    (hpaths : ∀ s s', s'.map (·.path) = s.map (·.path) → f s' = f s) : (Task.stack >>= f).Oblivious := by
  intro n s s' w hs
  have hsame : f s' = f s := hpaths s s' hs.map_path.symm
  show (f s s w).Matches _ (f s' s' w)
  rw [hsame]
  exact hf s n s s' w hs

theorem Oblivious.runs {t : Task σ α} (ht : t.Oblivious) {n : Nat} {s s' stack : Stack} {w w' : World σ}
    {a : α} (hs : Stack.Like n s s') (h : t.Runs s w a stack w') :
    ∃ stack', Stack.Like n stack stack' ∧ t.Runs s' w a stack' w' := by
  obtain ⟨⟨a', stack'⟩, ⟨rfl, hstack⟩, he⟩ := (ht n s s' w hs).ends h
  exact ⟨stack', hstack, he⟩

end Task

namespace Request

variable (request : Request σ)

theorem oblivious_record (slots : List Path) :
    (Task.onStack (Stack.record · slots) : Task σ Unit).Oblivious :=
  Task.oblivious_onStack fun _ _ _ hs => hs.record slots

theorem inherited_oblivious : request.Inherited (@Task.Oblivious σ) where
  pure := Task.oblivious_pure
  bind := Task.Oblivious.bind
  stack := Task.oblivious_stack
  taint := Task.oblivious_onStack fun _ _ _ hs => hs.taint
  tell _ := Task.oblivious_onWorld _
  find := Inherited.find_of_world Task.oblivious_pure Task.Oblivious.bind Task.oblivious_world
    oblivious_record
  keptResult := Inherited.keptResult_of_world Task.oblivious_pure Task.Oblivious.bind
    Task.oblivious_world oblivious_record

theorem oblivious_follow {evaluate : Evaluator σ} (he : ∀ site fresh, (evaluate site fresh).Oblivious)
    (p : Plan α) : (request.follow evaluate p).Oblivious :=
  (inherited_oblivious request).follow (fun _ r _ => Task.oblivious_ask r) he p

/-- The frame of the evaluation itself is on top of both stacks, so what it has read is the same. -/
theorem oblivious_compute {evaluate : Evaluator σ} (he : ∀ site fresh, (evaluate site fresh).Oblivious)
    (site : Site) : (request.compute evaluate site).Oblivious := by
  intro n s s' w hs
  rw [compute_eq, compute_eq]
  apply (oblivious_follow request he (Plan.render site) (n + 1) _ _ _ (.frame _ hs)).bind
  rintro ⟨result, frames⟩ ⟨_, frames'⟩ v ⟨rfl, hframes⟩
  have hstore : store site w.cache.epoch result frames (v.cache.finish w.cache.epoch) =
      store site w.cache.epoch result frames' (v.cache.finish w.cache.epoch) := by
    cases hframes
    cases result <;> rfl
  simp only [hstore]
  exact .done ⟨rfl, hframes.pop⟩ _

/-- An evaluation does the same whatever those that wait for it have read. -/
theorem oblivious_evaluate (left : Nat) (site : Site) (fresh : Bool) :
    (request.evaluate left site fresh).Oblivious :=
  (inherited_oblivious request).evaluate (oblivious_compute request) left site fresh

/-- What the innermost of those that wait has read decides nothing. -/
theorem runs_evaluate_record {left : Nat} {site : Site} {fresh : Bool} {stack s : Stack}
    {w v : World σ} {r : Except Fault Value} {slots : List Path}
    (h : (request.evaluate left site fresh).Runs (stack.record slots) w r s v) (slots' : List Path) :
    ∃ s', (request.evaluate left site fresh).Runs (stack.record slots') w r s' v := by
  have hlike : Stack.Like 0 (stack.record slots) (stack.record slots') :=
    .waiting (by rw [Stack.map_duty_record, Stack.map_duty_record])
  obtain ⟨s', -, hrun⟩ := (oblivious_evaluate request left site fresh).runs hlike h
  exact ⟨s', hrun⟩

end Request

end LiveDoc
