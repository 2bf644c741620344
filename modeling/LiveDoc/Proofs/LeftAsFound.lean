import LiveDoc.Proofs.Accounted
import LiveDoc.Proofs.Brackets
import LiveDoc.Proofs.ComposedTasks
import LiveDoc.Proofs.Logbook
import LiveDoc.Workbench
import Mathlib

/-! # What evaluations leave behind

Evaluations nest, fail, and have values stand in for them. Whichever way out one takes, those that
wait for it wait on, and of what it has begun nothing is left running.
-/

namespace LiveDoc

variable {σ α β : Type}

/-- The frame of the same evaluation, which may have read more, and whose result may be kept only if
it might be before. -/
structure Frame.Grows (f f' : Frame) : Prop where
  path : f'.path = f.path
  reads : ∀ slot ∈ f.reads, slot ∈ f'.reads
  keepable : f'.keepable = true → f.keepable = true

namespace Frame

variable {f g h inner : Frame}

theorem grows_refl (f : Frame) : f.Grows f :=
  ⟨rfl, fun _ hs => hs, id⟩

theorem Grows.trans (hfg : f.Grows g) (hgh : g.Grows h) : f.Grows h :=
  ⟨hgh.path.trans hfg.path, fun slot hs => hgh.reads slot (hfg.reads slot hs),
    fun hk => hfg.keepable (hgh.keepable hk)⟩

theorem grows_record (f : Frame) (slots : List Path) : f.Grows (f.record slots) :=
  ⟨rfl, fun _ hs => mem_reads_record.2 (.inl hs), id⟩

theorem grows_absorb (f inner : Frame) : f.Grows (f.absorb inner) :=
  ⟨rfl, fun _ hs => mem_reads_record.2 (.inl hs), fun hk => (Bool.and_eq_true_iff.1 hk).1⟩

end Frame

namespace Stack

variable {s s' s'' : Stack}

theorem grows_refl (s : Stack) : List.Forall₂ Frame.Grows s s :=
  List.forall₂_same.2 fun f _ => f.grows_refl

theorem grows_trans (h : List.Forall₂ Frame.Grows s s') (h' : List.Forall₂ Frame.Grows s' s'') :
    List.Forall₂ Frame.Grows s s'' := by
  induction h generalizing s'' with
  | nil => exact h'
  | cons hf _ ih =>
    cases h' with
    | cons hg h' => exact .cons (hf.trans hg) (ih h')

theorem grows_record (s : Stack) (slots : List Path) :
    List.Forall₂ Frame.Grows s (s.record slots) := by
  cases s with
  | nil => exact .nil
  | cons f rest => exact .cons (f.grows_record slots) (grows_refl rest)

theorem grows_taint (s : Stack) : List.Forall₂ Frame.Grows s s.taint :=
  List.forall₂_map_right_iff.2 (List.forall₂_same.2 fun _ _ => ⟨rfl, fun _ hs => hs, nofun⟩)

/-- When the innermost evaluation is left, those that wait for it have grown. -/
theorem grows_pop {f : Frame} (h : List.Forall₂ Frame.Grows (f :: s) s') :
    List.Forall₂ Frame.Grows s (Stack.pop s') := by
  cases h with
  | @cons _ inner _ _ _ hrest =>
    cases hrest with
    | nil => exact .nil
    | cons hg hrest => exact .cons (hg.trans (Frame.grows_absorb _ inner)) hrest

end Stack

/-- From every stack the task keeps its brackets, and the stack grows. -/
def Task.Bracketed (t : Task σ α) : Prop :=
  ∀ stack w, (t stack w).Bracketed (fun pair => List.Forall₂ Frame.Grows stack pair.2) [] w.cache

namespace Task

theorem bracketed_pure (a : α) : (pure a : Task σ α).Bracketed :=
  fun stack _ => Step.bracketed_done rfl stack.grows_refl

theorem Bracketed.bind {t : Task σ α} {f : α → Task σ β} (ht : t.Bracketed)
    (hf : ∀ a, (f a).Bracketed) : (t >>= f).Bracketed := by
  intro stack w
  apply (ht stack w).bind
  rintro ⟨a, s⟩ v hs
  exact (hf a s v).mono fun _ hs' => Stack.grows_trans hs hs'

theorem bracketed_onStack {f : Stack → Stack} (hf : ∀ s, List.Forall₂ Frame.Grows s (f s)) :
    (Task.onStack f : Task σ Unit).Bracketed :=
  fun stack _ => Step.bracketed_done rfl (hf stack)

theorem bracketed_stack : (Task.stack : Task σ Stack).Bracketed :=
  fun stack _ => Step.bracketed_done rfl stack.grows_refl

theorem bracketed_world : (Task.world : Task σ (World σ)).Bracketed :=
  fun stack _ => Step.bracketed_done rfl stack.grows_refl

theorem bracketed_tell (report : Report) : (Task.onWorld fun w : World σ =>
    { w with reports := w.reports ++ [report] }).Bracketed :=
  fun stack _ => Step.bracketed_done rfl stack.grows_refl

theorem bracketed_ask (r : Resolver σ) (args : List Value) : (Task.ask r args).Bracketed := by
  intro stack w
  apply Step.bracketed_poll
  intro answer v
  exact Step.bracketed_done rfl stack.grows_refl

end Task

namespace Request

variable (request : Request σ)

theorem inherited_bracketed : request.Inherited (@Task.Bracketed σ) where
  pure := Task.bracketed_pure
  bind := Task.Bracketed.bind
  stack hf _ := Task.bracketed_stack.bind hf
  taint := Task.bracketed_onStack Stack.grows_taint
  tell := Task.bracketed_tell
  find := Inherited.find_of_world Task.bracketed_pure Task.Bracketed.bind Task.bracketed_world
    fun slots => Task.bracketed_onStack (Stack.grows_record · slots)
  keptResult := Inherited.keptResult_of_world Task.bracketed_pure Task.Bracketed.bind
    Task.bracketed_world fun slots => Task.bracketed_onStack (Stack.grows_record · slots)

theorem bracketed_follow {evaluate : Evaluator σ} (he : ∀ site fresh, (evaluate site fresh).Bracketed)
    (p : Plan α) : (request.follow evaluate p).Bracketed :=
  (inherited_bracketed request).follow (fun _ r _ => Task.bracketed_ask r) he p

/-- An evaluation ends in the cache where its result is stored, if it is. -/
theorem lead_store (site : Site) (epoch : Nat) (result : Except Fault Value) (frames : Stack)
    (c : Cache) : Mark.Lead [.ended epoch] c (store site epoch result frames (c.finish epoch)) := by
  rcases store_cases site epoch result frames (c.finish epoch) with hs | ⟨value, reads, -, hs⟩
  · rw [hs]
    exact .ended epoch (.none _)
  · rw [hs]
    exact .ended epoch (.kept _ _ (.none _))

/-- Around what an evaluation does are its begin and its end, and around its frame those that wait. -/
theorem bracketed_compute {evaluate : Evaluator σ} (he : ∀ site fresh, (evaluate site fresh).Bracketed)
    (site : Site) : (request.compute evaluate site).Bracketed := by
  intro stack w
  have hbegin : Mark.Lead [.began w.cache.epoch] w.cache w.cache.begin := .began (.none _)
  have hopen : Mark.Turns [] [.began w.cache.epoch] [w.cache.epoch] := .began (.nil _)
  have hfollow := bracketed_follow request he (Plan.render site)
    (.enter site.path :: stack) { w with cache := w.cache.begin }
  rw [compute_eq]
  refine .after hbegin hopen (hfollow.bind ?_)
  rintro ⟨result, frames⟩ v hframes
  exact .done (lead_store site _ result frames v.cache) (.ended (.nil [])) (Stack.grows_pop hframes)

theorem bracketed_evaluate (left : Nat) (site : Site) (fresh : Bool) :
    (request.evaluate left site fresh).Bracketed :=
  (inherited_bracketed request).evaluate (bracketed_compute request) left site fresh

end Request

/-- A computation has gone its legs from one stack and world to others. -/
structure LeftAsFound (stack stack' : Stack) (legs : List Leg) (w w' : World σ) : Prop where
  /-- The same evaluations wait in the same order. -/
  frames : List.Forall₂ Frame.Grows stack stack'
  /-- What is begun on the legs is ended on them once, in the epoch in which it was begun. -/
  matched : ∃ marks : List (List Mark),
    List.Forall₂ (fun leg ms => Mark.Lead ms leg.given leg.left) legs marks ∧ Mark.Matched marks.flatten
  /-- If only others have evaluations running before, then only they have in the end. -/
  running : ∀ others others', Leg.Among others legs others' → w.cache.running.Perm others →
    w'.cache.running.Perm others'

theorem Task.Bracketed.leftAsFound {t : Task σ α} (ht : t.Bracketed) {stack stack' : Stack}
    {w w' : World σ} {legs : List Leg} {a : α} (h : (t stack w).Passes w.cache legs (a, stack') w') :
    LeftAsFound stack stack' legs w w' := by
  obtain ⟨hframes, ⟨marks, hlead, hturns⟩, hrunning⟩ := (ht stack w).passes h
  exact ⟨hframes, ⟨marks, hlead, hturns.matched⟩, hrunning⟩

namespace Request

/-- Whether it ends with a value, without one or with a failure, a read inside others and an
evaluation leave what waits for them and what runs as they have found it. -/
theorem evaluation_leaves_as_found (request : Request σ) (left : Nat) (stack : Stack) (w : World σ) :
    (∀ path fresh legs r stack' w',
      (request.follow (request.evaluate left) (Plan.resolve fresh path) stack w).Passes w.cache legs
        (r, stack') w' → LeftAsFound stack stack' legs w w') ∧
    (∀ site fresh legs r stack' w',
      (request.evaluate left site fresh stack w).Passes w.cache legs (r, stack') w' →
        LeftAsFound stack stack' legs w w') := by
  have hevaluate := bracketed_evaluate request left
  constructor
  · intro path fresh legs r stack' w' h
    exact (bracketed_follow request hevaluate (Plan.resolve fresh path)).leftAsFound h
  · intro site fresh legs r stack' w' h
    exact (hevaluate site fresh).leftAsFound h

/-- A number stands in for every failure. -/
def forgiving : Request Workbench where
  options := { (Options.default : Options Workbench) with
    registry := .ofList [("slow", Workbench.slow)]
    onError := some fun _ _ => .substitute (.num (.int 0)) }
  context := .empty
  fallback := none

/-- An expression that waits and then reads itself. -/
def selfReading : Site :=
  ⟨⟨[".v"]⟩, "$\x7b[slow(1), v]\x7d", .empty, []⟩

def selfReadingWorld : World Workbench :=
  ⟨.obj [("x", .num (.int 1)), (".v", .str selfReading.text)], .empty, .empty, [], .empty⟩

/-- Others write a slot and begin an evaluation. -/
def writtenMeanwhile (w : World Workbench) : World Workbench :=
  { w with cache := (w.cache.invalidate ⟨["x"]⟩).begin }

/-- An expression waits for the one that reads itself. -/
def waitingStack : Stack :=
  [.enter ⟨[".u"]⟩]

/-- What stands in for the cycle keeps the result of what waits from being kept. -/
def waitingStackAfter : Stack :=
  [⟨⟨[".u"]⟩, [⟨["v"]⟩, ⟨["$context"]⟩, ⟨["u"]⟩], false⟩]

/-- Of all evaluations the one that others have begun goes on. -/
theorem selfReading_leaves_as_found :
    (∃ legs w', (forgiving.follow (forgiving.evaluate 2) (Plan.resolve false ⟨["v"]⟩) waitingStack
        selfReadingWorld).Passes selfReadingWorld.cache legs
          (.ok (some (.arr [.null, .num (.int 0)])), waitingStackAfter) w' ∧
      w'.cache.running = [1] ∧
      LeftAsFound waitingStack waitingStackAfter legs selfReadingWorld w') ∧
    (∃ legs w', (forgiving.evaluate 2 selfReading false waitingStack selfReadingWorld).Passes
        selfReadingWorld.cache legs (.ok (.arr [.null, .num (.int 0)]), waitingStackAfter) w' ∧
      w'.cache.running = [1] ∧
      LeftAsFound waitingStack waitingStackAfter legs selfReadingWorld w') := by
  obtain ⟨hresolve, hevaluate⟩ := evaluation_leaves_as_found forgiving 2 waitingStack selfReadingWorld
  constructor
  · obtain ⟨legs, w', hpasses, hrunning⟩ : ∃ legs w', (forgiving.follow (forgiving.evaluate 2)
        (Plan.resolve false ⟨["v"]⟩) waitingStack selfReadingWorld).Passes selfReadingWorld.cache legs
          (.ok (some (.arr [.null, .num (.int 0)])), waitingStackAfter) w' ∧ w'.cache.running = [1] := by
      apply Step.exists_passes [writtenMeanwhile]
      cbv
    exact ⟨legs, w', hpasses, hrunning, hresolve _ _ _ _ _ _ hpasses⟩
  · obtain ⟨legs, w', hpasses, hrunning⟩ : ∃ legs w', (forgiving.evaluate 2 selfReading false
        waitingStack selfReadingWorld).Passes selfReadingWorld.cache legs
          (.ok (.arr [.null, .num (.int 0)]), waitingStackAfter) w' ∧ w'.cache.running = [1] := by
      apply Step.exists_passes [writtenMeanwhile]
      cbv
    exact ⟨legs, w', hpasses, hrunning, hevaluate _ _ _ _ _ _ hpasses⟩

end Request

end LiveDoc
