import LiveDoc.Proofs.Finishing
import LiveDoc.Proofs.Hooks
import LiveDoc.Proofs.Parts
import LiveDoc.Proofs.Questions
import Mathlib.Data.Prod.Lex

/-! # The moments of a read

A read calls for reads of parts and for evaluations, an evaluation calls for the answers to a query,
and each answer for reads again. What is called for, and in which state, is a moment. A moment comes
to an end if all that it calls for does, and what it calls for is less: another evaluation has
begun, or fewer questions of the expression are left, or the document lies less deep.
-/

namespace LiveDoc

variable {σ α β : Type}

/-! ## Ends of steps -/

namespace Step

/-- Only finitely many polls are left if nothing but the host changes in between. -/
inductive Halts : Step σ α → Prop where
  | done (a : α) (w : World σ) : Halts (.done a w)
  | wait {call : Call σ} {next : Except String Value → World σ → Step σ α} {w : World σ}
    (polled : ∀ host, (call.poll next { w with host := host }).Halts) : Halts (.wait call next w)

theorem Finishes.halts {s : Step σ α} (h : s.Finishes) : s.Halts := by
  induction h with
  | done a w => exact .done a w
  | wait _ ih => exact .wait fun host => ih _

theorem Halts.ends {s : Step σ α} (h : s.Halts) : ∃ a w, s.Ends a w := by
  induction h with
  | done a w => exact ⟨a, w, .done a w⟩
  | @wait call next w _ ih =>
    obtain ⟨a, w', h⟩ := ih w.host
    obtain ⟨answer, asked, host, host', hanswer, hn⟩ := ends_poll h
    exact ⟨a, w', .wait hanswer hn⟩

/-- What follows has to end only from where the step ends. -/
theorem Halts.bind {s : Step σ α} {f : α → World σ → Step σ β} (hs : s.Halts)
    (hf : ∀ a w, s.Ends a w → (f a w).Halts) : (s.bind f).Halts := by
  induction hs with
  | done a w => exact hf a w (.done a w)
  | @wait call next w _ ih =>
    refine .wait fun host => ?_
    rw [Call.poll_bind]
    refine ih host fun a w' h => hf a w' ?_
    obtain ⟨answer, asked, host', host'', hanswer, hn⟩ := ends_poll h
    exact .wait hanswer hn

theorem bind_assoc {γ : Type} (s : Step σ α) (f : α → World σ → Step σ β)
    (g : β → World σ → Step σ γ) :
    (s.bind f).bind g = s.bind fun a w => (f a w).bind g := by
  induction s with
  | done a w => rfl
  | wait call next w ih =>
    simp only [bind, wait.injEq, true_and, and_true]
    exact funext fun answer => funext fun w => ih answer w

end Step

namespace Task

/-- The task comes to an end from a stack and a world. -/
def Halts (t : Task σ α) (stack : Stack) (w : World σ) : Prop :=
  (t stack w).Halts

variable {t : Task σ α} {stack : Stack} {w : World σ}

theorem bind_assoc {γ : Type} (t : Task σ α) (f : α → Task σ β) (g : β → Task σ γ) :
    t >>= f >>= g = t >>= fun a => f a >>= g :=
  funext fun stack => funext fun w =>
    Step.bind_assoc (t stack w) (fun pair w => f pair.1 pair.2 w) fun pair w => g pair.1 pair.2 w

theorem halts_pure (a : α) (stack : Stack) (w : World σ) : (pure a : Task σ α).Halts stack w :=
  .done (a, stack) w

theorem Finishes.halts (h : t.Finishes) (stack : Stack) (w : World σ) : t.Halts stack w :=
  (h stack w).halts

theorem Halts.bind {f : α → Task σ β} (ht : t.Halts stack w)
    (hf : ∀ a s v, t.Runs stack w a s v → (f a).Halts s v) : (t >>= f).Halts stack w :=
  Step.Halts.bind ht fun pair v h => hf pair.1 pair.2 v h

end Task

/-! ## Composed plans -/

namespace Plan

/-- Reading an item of an array. -/
def itemPart (fresh : Bool) (levels : Nat) (path : Path) : Plan Value := do
  return (← Plan.find path (descend fresh levels)).getD .null

/-- Reading a slot of a mapping. -/
def slotPart (fresh : Bool) (levels : Nat) (slot : String × Path) : Plan (String × Value) := do
  return (slot.1, (← Plan.find slot.2 (descend fresh levels)).getD .null)

theorem descend_mapping (fresh : Bool) (levels k : Nat) (slots : List (String × Path)) :
    descend fresh (levels + 1) (.mapping slots k) = (gather (slotPart fresh levels) slots).bind
      fun members => .done (.ok (some (.obj (Assoc.ofList members)))) :=
  rfl

theorem descend_list (fresh : Bool) (levels k : Nat) (items : List Path) :
    descend fresh (levels + 1) (.list items k) = (gather (itemPart fresh levels) items).bind
      fun values => .done (.ok (some (.arr values))) :=
  rfl

end Plan

namespace Request

variable {request : Request σ} {evaluate : Evaluator σ} {stack stack' : Stack} {w w' : World σ}

/-- How deep what lies at a path is; parts that are expressions do not count. -/
def heightAt (request : Request σ) (w : World σ) (path : Path) : Nat :=
  match locate w.document path (w.context.merge request.context) with
  | .static _ value _ => value.depth
  | _ => 0

theorem follow_find (path : Path) (next : Found → Plan α) (stack : Stack) (w : World σ) :
    request.follow evaluate (.find path next) stack w =
      request.follow evaluate (next (request.foundAt w path)) (stack.record (walkReads path)) w :=
  rfl

theorem follow_evaluate (site : Site) (fresh : Bool) (next : Value → Plan α) :
    request.follow evaluate (.evaluate site fresh next) = evaluate site fresh >>= fun q =>
      match q with
      | .ok v => request.follow evaluate (next v)
      | .error fault => pure (.error fault) :=
  follow.eq_3 ..

theorem follow_call (name : String) (args : List Value) (next : Value → Plan α) :
    request.follow evaluate (.call name args next) = request.call name args >>= fun q =>
      match q with
      | .ok v => request.follow evaluate (next v)
      | .error fault => pure (.error fault) :=
  follow.eq_4 ..

theorem follow_bind (p : Plan α) (f : α → Plan β) : request.follow evaluate (p.bind f) = (do
    match ← request.follow evaluate p with
    | .ok a => request.follow evaluate (f a)
    | .error fault => return .error fault) := by
  induction p with
  | done result => cases result <;> rfl
  | find path next ih =>
    funext stack w
    have h := congrFun (congrFun (ih (request.foundAt w path)) (stack.record (walkReads path))) w
    exact h
  | evaluate site fresh next ih =>
    rw [Plan.bind, follow_evaluate, follow_evaluate, Task.bind_assoc]
    refine congrArg _ (funext fun q => ?_)
    cases q with
    | ok v => exact ih v
    | error fault => rfl
  | call name args next ih =>
    rw [Plan.bind, follow_call, follow_call, Task.bind_assoc]
    refine congrArg _ (funext fun q => ?_)
    cases q with
    | ok v => exact ih v
    | error fault => rfl

/-- Plans in a row fail with the first, or go on with its value. -/
theorem runs_follow_bind {p : Plan α} {f : α → Plan β} {r : Except Fault β} :
    (request.follow evaluate (p.bind f)).Runs stack w r stack' w' ↔
      (∃ fault, r = .error fault ∧ (request.follow evaluate p).Runs stack w (.error fault) stack' w') ∨
        ∃ a s v, (request.follow evaluate p).Runs stack w (.ok a) s v ∧
          (request.follow evaluate (f a)).Runs s v r stack' w' := by
  rw [follow_bind, Task.runs_bind_iff]
  constructor
  · rintro ⟨q, s, v, hp, h⟩
    cases q with
    | error fault =>
      obtain ⟨rfl, rfl, rfl⟩ := Task.runs_pure_iff.1 h
      exact .inl ⟨fault, rfl, hp⟩
    | ok a => exact .inr ⟨a, s, v, hp, h⟩
  · rintro (⟨fault, rfl, hp⟩ | ⟨a, s, v, hp, h⟩)
    · exact ⟨_, _, _, hp, Task.runs_pure_iff.2 ⟨rfl, rfl, rfl⟩⟩
    · exact ⟨_, _, _, hp, h⟩

theorem halts_follow_bind {p : Plan α} {f : α → Plan β}
    (hp : (request.follow evaluate p).Halts stack w)
    (hf : ∀ a s v, (request.follow evaluate p).Runs stack w (.ok a) s v →
      (request.follow evaluate (f a)).Halts s v) :
    (request.follow evaluate (p.bind f)).Halts stack w := by
  rw [follow_bind]
  refine hp.bind fun r s v hr => ?_
  cases r with
  | ok a => exact hf a s v hr
  | error fault => exact Task.halts_pure _ _ _

/-- Doing the same for each item ends if it does for each once it has for those before. -/
theorem halts_gather {item : α → Plan β} {as : List α}
    (h : ∀ front a back bs s v, as = front ++ a :: back →
      (request.follow evaluate (Plan.gather item front)).Runs stack w (.ok bs) s v →
      (request.follow evaluate (item a)).Halts s v) :
    (request.follow evaluate (Plan.gather item as)).Halts stack w := by
  induction as generalizing stack w with
  | nil => exact Task.halts_pure _ _ _
  | cons a rest ih =>
    have hnil : (request.follow evaluate (Plan.gather item [])).Runs stack w (.ok []) stack w :=
      Task.runs_pure_iff.2 ⟨rfl, rfl, rfl⟩
    refine halts_follow_bind (h [] a rest [] stack w rfl hnil) fun b s v hb => ?_
    refine halts_follow_bind (ih fun front a' back bs s' v' hrest hbs => ?_) fun bs s' v' _ =>
      Task.halts_pure _ _ _
    refine h (a :: front) a' back (b :: bs) s' v' (congrArg (a :: ·) hrest) ?_
    show (request.follow evaluate ((item a).bind fun b => (Plan.gather item front).bind fun bs =>
      .done (.ok (b :: bs)))).Runs stack w (.ok (b :: bs)) s' v'
    rw [follow_bind, Task.runs_bind_iff]
    refine ⟨.ok b, s, v, hb, ?_⟩
    show (request.follow evaluate ((Plan.gather item front).bind fun bs =>
      .done (.ok (b :: bs)))).Runs s v (.ok (b :: bs)) s' v'
    rw [follow_bind, Task.runs_bind_iff]
    exact ⟨.ok bs, s', v', hbs, Task.runs_pure_iff.2 ⟨rfl, rfl, rfl⟩⟩

end Request

/-! ## Moments -/

/-- What a read sets to work on. -/
inductive Errand where
  /-- A path to be read, at most the given number of levels deep. -/
  | read (path : Path) (fresh : Bool) (levels : Nat)
  | evaluate (site : Site) (fresh : Bool)
  /-- A query to be answered that asks at most the given number of questions. -/
  | answer (query : Query Value) (questions : Nat)

/-- An errand with the number of evaluations that may still nest, the evaluations that wait for it and
the world in which it begins. -/
structure Moment (σ : Type) where
  left : Nat
  errand : Errand
  stack : Stack
  world : World σ

namespace Request

variable (request : Request σ)

/-- What an errand calls for on its way, in the state that it has come to by then. -/
inductive Calls : Moment σ → Moment σ → Prop where
  /-- The slots of a mapping in turn. -/
  | slot {left levels k : Nat} {path : Path} {fresh : Bool} {stack stack' : Stack} {w w' : World σ}
    {slots front back : List (String × Path)} {slot : String × Path}
    {members : List (String × Value)} (found : request.foundAt w path = .mapping slots k)
    (turn : slots = front ++ slot :: back)
    (run : (request.follow (request.evaluate left)
      (Plan.gather (Plan.slotPart fresh levels) front)).Runs (stack.record (walkReads path)) w
        (.ok members) stack' w') :
    Calls ⟨left, .read path fresh (levels + 1), stack, w⟩
      ⟨left, .read slot.2 fresh levels, stack', w'⟩
  /-- The items of an array in turn. -/
  | item {left levels k : Nat} {path item : Path} {fresh : Bool} {stack stack' : Stack}
    {w w' : World σ} {items front back : List Path} {values : List Value}
    (found : request.foundAt w path = .list items k) (turn : items = front ++ item :: back)
    (run : (request.follow (request.evaluate left)
      (Plan.gather (Plan.itemPart fresh levels) front)).Runs (stack.record (walkReads path)) w
        (.ok values) stack' w') :
    Calls ⟨left, .read path fresh (levels + 1), stack, w⟩ ⟨left, .read item fresh levels, stack', w'⟩
  | met {left levels : Nat} {path : Path} {fresh : Bool} {stack : Stack} {w : World σ} {site : Site}
    (found : request.foundAt w path = .expression site) :
    Calls ⟨left, .read path fresh levels, stack, w⟩
      ⟨left, .evaluate site fresh, stack.record (walkReads path), w⟩
  /-- The template of an expression that is neither known nor waited for. -/
  | enter {left : Nat} {site : Site} {fresh : Bool} {stack : Stack} {w : World σ} {t : Template}
    (unknown : fresh = true ∨ w.cache.lookup (keyOf site) = none)
    (free : stack.holds site.path = false) (parsed : Template.parse site.text = .ok t) :
    Calls ⟨left + 1, .evaluate site fresh, stack, w⟩
      ⟨left, .answer (Query.ofTemplate ⟨site.owner, site.context⟩ t) (Part.questionsOf t),
        .enter site.path :: stack, { w with cache := w.cache.begin }⟩
  | ask {left n : Nat} {path : Path} {fresh : Bool} {next : Option Value → Query Value}
    {stack : Stack} {w : World σ} :
    Calls ⟨left, .answer (.read path fresh next) n, stack, w⟩
      ⟨left, .read path fresh (request.foundAt w path).levels, stack, w⟩
  | asked {left n : Nat} {path : Path} {fresh : Bool} {next : Option Value → Query Value}
    {stack stack' : Stack} {w w' : World σ} {v : Option Value}
    (run : (request.follow (request.evaluate left) (Plan.resolve fresh path)).Runs stack w (.ok v)
      stack' w') :
    Calls ⟨left, .answer (.read path fresh next) n, stack, w⟩
      ⟨left, .answer (next v) (n - 1), stack', w'⟩
  | measure {left n : Nat} {path : Path} {next : Option Nat → Query Value} {stack : Stack}
    {w : World σ} {site : Site} (found : request.foundAt w path = .expression site) :
    Calls ⟨left, .answer (.measure path next) n, stack, w⟩
      ⟨left, .evaluate site false, stack.record (walkReads path), w⟩
  | measured {left n : Nat} {path : Path} {next : Option Nat → Query Value} {stack stack' : Stack}
    {w w' : World σ} {size : Option Nat}
    (run : (request.follow (request.evaluate left) (Plan.measure path)).Runs stack w (.ok size)
      stack' w') :
    Calls ⟨left, .answer (.measure path next) n, stack, w⟩
      ⟨left, .answer (next size) (n - 1), stack', w'⟩
  | called {left n : Nat} {name : String} {args : List Value} {next : Value → Query Value}
    {stack stack' : Stack} {w w' : World σ} {v : Value}
    (run : (request.call name args).Runs stack w (.ok v) stack' w') :
    Calls ⟨left, .answer (.call name args next) n, stack, w⟩
      ⟨left, .answer (next v) (n - 1), stack', w'⟩

/-- What an errand calls for, directly or through other errands. -/
def Reaches : Moment σ → Moment σ → Prop :=
  Relation.ReflTransGen request.Calls

/-- The moment at which a read of a path begins. -/
def opening (path : Path) (fresh : Bool) (w : World σ) : Moment σ :=
  ⟨request.options.maxDepth, .read path fresh (request.foundAt w path).levels, [], w⟩

/-- The errand comes to an end. -/
def HaltsAt : Moment σ → Prop
  | ⟨left, .read path fresh levels, stack, w⟩ =>
    (request.follow (request.evaluate left) (.find path (Plan.descend fresh levels))).Halts stack w
  | ⟨left, .evaluate site fresh, stack, w⟩ => (request.evaluate left site fresh).Halts stack w
  | ⟨left, .answer q _, stack, w⟩ =>
    (request.follow (request.evaluate left) (Plan.answer q)).Halts stack w

variable {request}

/-! ## What has to end for an errand to end -/

theorem halts_read {left levels : Nat} {path : Path} {fresh : Bool} {stack : Stack} {w : World σ}
    (h : ∀ m, request.Calls ⟨left, .read path fresh levels, stack, w⟩ m → request.HaltsAt m) :
    request.HaltsAt ⟨left, .read path fresh levels, stack, w⟩ := by
  show Step.Halts (request.follow _ _ stack w)
  rw [follow_find]
  cases hf : request.foundAt w path with
  | missing | scalar =>
    simp only [Plan.descend]
    exact Task.halts_pure _ _ _
  | expression site =>
    simp only [Plan.descend]
    rw [follow_evaluate]
    refine Task.Halts.bind (h _ (.met hf)) fun q s v _ => ?_
    cases q <;> exact Task.halts_pure _ _ _
  | mapping slots k =>
    cases levels with
    | zero => exact .done _ _
    | succ levels =>
      rw [Plan.descend_mapping]
      refine halts_follow_bind (halts_gather fun front slot back members s v hslots hrun => ?_)
        fun members s v _ => .done _ _
      exact halts_follow_bind (h _ (.slot hf hslots hrun)) fun v s w _ => .done _ _
  | list items k =>
    cases levels with
    | zero => exact .done _ _
    | succ levels =>
      rw [Plan.descend_list]
      refine halts_follow_bind (halts_gather fun front item back values s v hitems hrun => ?_)
        fun values s v _ => .done _ _
      exact halts_follow_bind (h _ (.item hf hitems hrun)) fun v s w _ => .done _ _

theorem halts_evaluate {left : Nat} {site : Site} {fresh : Bool} {stack : Stack} {w : World σ}
    (h : ∀ m, request.Calls ⟨left, .evaluate site fresh, stack, w⟩ m → request.HaltsAt m) :
    request.HaltsAt ⟨left, .evaluate site fresh, stack, w⟩ := by
  have hfinishes : request.Inherited (Task.Has (@Step.Finishes σ)) := inherited_has Step.inherited_finishes
  have hrecover (error : EvalError) (s : Stack) (v : World σ) :
      (request.recover error site.path).Halts s v :=
    Task.Finishes.halts (hfinishes.recover error site.path) s v
  show (request.evaluate left site fresh).Halts stack w
  unfold evaluate
  refine Task.Halts.bind (Task.Finishes.halts (hfinishes.remembered site fresh) stack w)
    fun known s v hk => ?_
  obtain ⟨rfl, ⟨entry, -, -, rfl, rfl⟩ | ⟨hu, rfl, rfl⟩⟩ := runs_remembered hk
  · exact Task.halts_pure _ _ _
  · refine Task.Halts.bind (Task.Finishes.halts (Task.has_stack Step.inherited_finishes) s v) fun frames s' v' hs => ?_
    obtain ⟨rfl, rfl, rfl⟩ := Task.runs_stack_iff.1 hs
    cases hh : Stack.holds s' site.path with
    | true =>
      simp only [if_true]
      exact hrecover _ _ _
    | false =>
      simp only [Bool.false_eq_true, if_false]
      cases left with
      | zero => exact hrecover _ _ _
      | succ left =>
        refine Task.Halts.bind ?_ fun r s v _ => ?_
        · show Step.Halts (request.compute (request.evaluate left) site s' v')
          rw [compute_eq]
          refine Step.Halts.bind ?_ fun pair v _ => .done _ _
          unfold Plan.render
          cases ht : Template.parse site.text with
          | error cause => exact .done _ _
          | ok t => exact h _ (.enter hu hh ht)
        · cases r with
          | ok value => exact Task.halts_pure _ _ _
          | error fault =>
            dsimp only
            split
            · exact Task.halts_pure _ _ _
            · exact hrecover _ _ _

theorem halts_answer (ha : request.options.Answers) {left n : Nat} {q : Query Value} {stack : Stack}
    {w : World σ} (h : ∀ m, request.Calls ⟨left, .answer q n, stack, w⟩ m → request.HaltsAt m) :
    request.HaltsAt ⟨left, .answer q n, stack, w⟩ := by
  show (request.follow (request.evaluate left) (Plan.answer q)).Halts stack w
  cases q with
  | done result => exact Task.halts_pure _ _ _
  | read path fresh next =>
    refine halts_follow_bind ?_ fun v s u hrun => h _ (.asked hrun)
    have hread := h _ .ask
    exact hread
  | measure path next =>
    refine halts_follow_bind ?_ fun size s u hrun => h _ (.measured hrun)
    show Step.Halts (request.follow _ (.find path _) stack w)
    rw [follow_find]
    cases hf : request.foundAt w path with
    | expression site =>
      dsimp only
      rw [follow_evaluate]
      refine Task.Halts.bind (h _ (.measure hf)) fun q s v _ => ?_
      cases q with
      | ok v =>
        dsimp only
        split <;> exact Task.halts_pure _ _ _
      | error fault => exact Task.halts_pure _ _ _
    | _ => exact .done _ _
  | call name args next =>
    show Task.Halts (request.follow _ (.call name args fun v => Plan.answer (next v))) stack w
    rw [follow_call]
    refine Task.Halts.bind (Task.Finishes.halts
      ((inherited_has Step.inherited_finishes).call (finishes_ask ha) name args) stack w) fun q s v hrun => ?_
    cases q with
    | ok v => exact h _ (.called hrun)
    | error fault => exact Task.halts_pure _ _ _

/-- An errand comes to an end if all that it calls for does. -/
theorem halts_of_calls (ha : request.options.Answers) {m : Moment σ}
    (h : ∀ m', request.Calls m m' → request.HaltsAt m') : request.HaltsAt m := by
  obtain ⟨left, errand, stack, w⟩ := m
  cases errand with
  | read path fresh levels => exact halts_read h
  | evaluate site fresh => exact halts_evaluate h
  | answer q n => exact halts_answer ha h

/-! ## What is called for is less -/

end Request

namespace Errand

/-- How many questions are still to be answered. -/
def questions : Errand → Nat
  | .answer _ n => n
  | _ => 0

end Errand

namespace Request

/-- How deep a read has still to go. -/
def depthOf (request : Request σ) (m : Moment σ) : Nat :=
  match m.errand with
  | .read path _ _ => request.heightAt m.world path + 1
  | _ => 0

/-- The numbers that an errand counts down are large enough. -/
def Enough (request : Request σ) (w : World σ) : Errand → Prop
  | .read path _ levels => request.heightAt w path ≤ levels
  | .evaluate _ _ => True
  | .answer q n => q.Within true n

/-- The expressions that wait differ, as many may follow as the limit leaves, and nothing else runs
out either. -/
structure Sound (request : Request σ) (m : Moment σ) : Prop where
  distinct : (m.stack.map (·.path)).Nodup
  budget : m.left + m.stack.length = request.options.maxDepth
  enough : request.Enough m.world m.errand

/-- The ways in which one errand is less than another. -/
inductive Descends (request : Request σ) (m m' : Moment σ) : Prop where
  /-- Another evaluation has begun. -/
  | frame (path : Path) (pushed : m'.stack.map (·.path) = path :: m.stack.map (·.path))
    (left : m'.left + 1 = m.left)
  /-- Among the same evaluations, fewer questions of the expression are left. -/
  | question (stack : m'.stack.map (·.path) = m.stack.map (·.path)) (left : m'.left = m.left)
    (fewer : m'.errand.questions < m.errand.questions)
  /-- Among the same evaluations, what is left of the document is less deep. -/
  | deeper (stack : m'.stack.map (·.path) = m.stack.map (·.path)) (left : m'.left = m.left)
    (questions : m'.errand.questions = m.errand.questions)
    (lower : request.depthOf m' < request.depthOf m)

/-- Evaluations left to nest, questions left in the expression and depth left in the document. -/
def rank (request : Request σ) (m : Moment σ) : ℕ ×ₗ ℕ ×ₗ ℕ :=
  toLex (m.left, toLex (m.errand.questions, request.depthOf m))

variable {request : Request σ} {m m' : Moment σ}

theorem Descends.rank_lt (h : request.Descends m m') : request.rank m' < request.rank m := by
  unfold rank
  cases h with
  | frame path pushed left => exact Prod.Lex.toLex_lt_toLex.2 (.inl (by dsimp only; omega))
  | question stack left fewer =>
    exact Prod.Lex.toLex_lt_toLex.2 (.inr ⟨left, Prod.Lex.toLex_lt_toLex.2 (.inl fewer)⟩)
  | deeper stack left questions lower =>
    exact Prod.Lex.toLex_lt_toLex.2 (.inr ⟨left, Prod.Lex.toLex_lt_toLex.2 (.inr ⟨questions, lower⟩)⟩)

/-! ### Parts of the document -/

section Depth

variable {w w' : World σ} {path place : Path} {current : Value} {context : Context}

theorem heightAt_congr (hd : w'.document = w.document) (hc : w'.context = w.context)
    (path : Path) : request.heightAt w' path = request.heightAt w path := by
  rw [heightAt, heightAt, hd, hc]

/-- What lies below is less deep. -/
theorem heightAt_child_lt
    (h : locate w.document path (w.context.merge request.context) = .static place current context)
    (hpos : 0 < current.depth) (key : String) :
    request.heightAt w (place.child key) < request.heightAt w path := by
  have hchild : locate w.document (place.child key) (w.context.merge request.context) =
      walk current place context [key] := locate_place h [key]
  rw [heightAt, heightAt, h, hchild]
  rcases walk_cons_cases current context key with he | ⟨key', text, he, hk⟩ | ⟨key', value, he, hx⟩
  · rw [walk_cons_none he]
    exact hpos
  · rw [walk_cons_expression he hk]
    exact hpos
  · rw [walk_cons_static he hx]
    exact Value.depth_child?_lt (enter?_child he).1

theorem slot_lower {slots : List (String × Path)} {k : Nat}
    (hf : request.foundAt w path = .mapping slots k) {slot : String × Path} (hs : slot ∈ slots) :
    request.heightAt w slot.2 < request.heightAt w path := by
  unfold foundAt at hf
  cases hl : locate w.document path (w.context.merge request.context) with
  | static place value context =>
    rw [hl] at hf
    cases value with
    | obj members =>
      cases hf
      obtain ⟨-, key, -, hp⟩ := mem_slotsOf.1 hs
      rw [hp]
      exact heightAt_child_lt hl (Nat.succ_pos _) key
    | _ => cases hf
  | _ => rw [hl] at hf; cases hf

theorem item_lower {items : List Path} {k : Nat} (hf : request.foundAt w path = .list items k)
    {item : Path} (hi : item ∈ items) : request.heightAt w item < request.heightAt w path := by
  unfold foundAt at hf
  cases hl : locate w.document path (w.context.merge request.context) with
  | static place value context =>
    rw [hl] at hf
    cases value with
    | arr values =>
      cases hf
      obtain ⟨i, -, rfl⟩ := List.mem_map.1 hi
      exact heightAt_child_lt hl (Nat.succ_pos _) (toString i)
    | _ => cases hf
  | _ => rw [hl] at hf; cases hf

/-- A read may go down as far as there is something. -/
theorem heightAt_le_levels (w : World σ) (path : Path) :
    request.heightAt w path ≤ (request.foundAt w path).levels := by
  unfold heightAt foundAt
  cases locate w.document path (w.context.merge request.context) with
  | static place value context =>
    cases value with
    | obj | arr => exact Nat.le_add_right _ _
    | _ => exact Nat.le_refl 0
  | _ => exact Nat.le_refl 0

end Depth

/-! ### One call -/

/-- The expressions that wait stay the same and so does what may still follow. -/
theorem Sound.of_paths {left : Nat} {errand errand' : Errand} {stack stack' : Stack}
    {w w' : World σ} (h : request.Sound ⟨left, errand, stack, w⟩)
    (hp : stack'.map (·.path) = stack.map (·.path)) (he : request.Enough w' errand') :
    request.Sound ⟨left, errand', stack', w'⟩ := by
  have hlength : stack'.length = stack.length := by simpa using congrArg List.length hp
  refine ⟨?_, ?_, he⟩
  · show (stack'.map (·.path)).Nodup
    rw [hp]
    exact h.distinct
  · show left + stack'.length = _
    rw [hlength]
    exact h.budget

theorem Sound.enter {left : Nat} {errand errand' : Errand} {site : Site} {stack : Stack}
    {w w' : World σ} (h : request.Sound ⟨left + 1, errand, stack, w⟩)
    (hfree : stack.holds site.path = false) (he : request.Enough w' errand') :
    request.Sound ⟨left, errand', .enter site.path :: stack, w'⟩ := by
  have hbudget : left + 1 + stack.length = request.options.maxDepth := h.budget
  have hnew : site.path ∉ stack.map (·.path) := by
    intro hm
    obtain ⟨frame, hframe, hpath⟩ := List.mem_map.1 hm
    have hholds : stack.holds site.path = true :=
      List.any_eq_true.2 ⟨frame, hframe, beq_iff_eq.2 hpath⟩
    rw [hfree] at hholds
    cases hholds
  refine ⟨List.nodup_cons.2 ⟨hnew, h.distinct⟩, ?_, he⟩
  show left + (stack.length + 1) = _
  omega

/-- What an errand calls for is less, and nothing runs out for it. -/
theorem Sound.calls (h : request.Sound m) (hc : request.Calls m m') :
    request.Descends m m' ∧ request.Sound m' := by
  have hsteady (left : Nat) := request.evaluate_steady left
  cases hc with
  | @slot left levels _ path _ stack stack' w w' _ _ _ slot _ found turn run =>
    have hst := follow_steady (hsteady left) run
    have hp := hst.paths.trans (stack.map_path_record _)
    have hlower := slot_lower found (turn ▸ List.mem_append_right _ List.mem_cons_self)
    rw [← heightAt_congr hst.document hst.context] at hlower
    have henough : request.heightAt w path ≤ levels + 1 := h.enough
    refine ⟨.deeper hp rfl rfl (Nat.succ_lt_succ hlower), h.of_paths hp ?_⟩
    show request.heightAt w' slot.2 ≤ levels
    omega
  | @item left levels _ path item _ stack stack' w w' _ _ _ _ found turn run =>
    have hst := follow_steady (hsteady left) run
    have hp := hst.paths.trans (stack.map_path_record _)
    have hlower := item_lower found (turn ▸ List.mem_append_right _ List.mem_cons_self)
    rw [← heightAt_congr hst.document hst.context] at hlower
    have henough : request.heightAt w path ≤ levels + 1 := h.enough
    refine ⟨.deeper hp rfl rfl (Nat.succ_lt_succ hlower), h.of_paths hp ?_⟩
    show request.heightAt w' item ≤ levels
    omega
  | @met _ _ path _ stack _ _ found =>
    have hp := stack.map_path_record (walkReads path)
    exact ⟨.deeper hp rfl rfl (Nat.succ_pos _), h.of_paths hp trivial⟩
  | @enter _ site _ _ _ t unknown free parsed =>
    exact ⟨.frame site.path rfl rfl,
      h.enter free (Query.within_ofTemplate t (Bool.le_true _))⟩
  | @ask _ n path _ _ _ w =>
    obtain ⟨-, hn, -⟩ : _ ∧ 0 < n ∧ _ := h.enough
    exact ⟨.question rfl rfl hn, h.of_paths rfl (heightAt_le_levels w path)⟩
  | @asked left n _ _ _ _ _ _ _ v run =>
    have hp := (follow_steady (hsteady left) run).paths
    obtain ⟨-, hn, hnext⟩ : _ ∧ 0 < n ∧ ∀ v, (_ : Query Value).Within true (n - 1) := h.enough
    exact ⟨.question hp rfl (Nat.sub_lt hn Nat.one_pos), h.of_paths hp (hnext v)⟩
  | @measure _ n path _ stack _ site found =>
    obtain ⟨hn, -⟩ : 0 < n ∧ _ := h.enough
    have hp := stack.map_path_record (walkReads path)
    exact ⟨.question hp rfl hn, h.of_paths hp trivial⟩
  | @measured left n _ _ _ _ _ _ size run =>
    have hp := (follow_steady (hsteady left) run).paths
    obtain ⟨hn, hnext⟩ : 0 < n ∧ ∀ size, (_ : Query Value).Within true (n - 1) := h.enough
    exact ⟨.question hp rfl (Nat.sub_lt hn Nat.one_pos), h.of_paths hp (hnext size)⟩
  | @called _ n _ _ _ _ _ _ _ v run =>
    obtain ⟨rfl, -⟩ := runs_call_frame run
    obtain ⟨hn, hnext⟩ : 0 < n ∧ ∀ v, (_ : Query Value).Within true (n - 1) := h.enough
    exact ⟨.question rfl rfl (Nat.sub_lt hn Nat.one_pos), h.of_paths rfl (hnext v)⟩

/-! ### Whole reads -/

theorem sound_opening (request : Request σ) (path : Path) (fresh : Bool) (w : World σ) :
    request.Sound (request.opening path fresh w) :=
  ⟨.nil, rfl, heightAt_le_levels w path⟩

theorem Sound.reaches (h : request.Sound m) (hr : request.Reaches m m') : request.Sound m' := by
  induction hr with
  | refl => exact h
  | tail _ hc ih => exact (ih.calls hc).2

/-- An errand comes to an end because all that it calls for is less. -/
theorem Sound.halts (ha : request.options.Answers) (h : request.Sound m) : request.HaltsAt m := by
  induction hr : request.rank m using WellFoundedLT.induction generalizing m with
  | ind _ ih =>
    refine halts_of_calls ha fun m' hc => ?_
    obtain ⟨hd, hs⟩ := h.calls hc
    exact ih _ (hr ▸ hd.rank_lt) hs rfl

end Request

end LiveDoc
