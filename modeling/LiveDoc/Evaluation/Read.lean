import LiveDoc.Evaluation.Plan
import LiveDoc.Evaluation.Stack
import LiveDoc.Evaluation.World
import LiveDoc.Suggestion

/-! # Reading with evaluation

A read follows a path, evaluates the expressions it meets, keeps their results, and puts mappings
and arrays together from their parts. References inside an expression are reads of the same kind,
with one evaluation fewer left to nest.
-/

namespace LiveDoc

/-- What a read was asked with. -/
structure Request (σ : Type) where
  options : Options σ
  /-- The context of the call, over the global one. -/
  context : Context
  fallback : Option Value

/-- A computation of a read: it has a stack of its own and shares the world. -/
def Task (σ α : Type) : Type :=
  Stack → World σ → Step σ (α × Stack)

namespace Task

variable {σ α β : Type}

instance : Monad (Task σ) where
  pure a := fun stack w => .done (a, stack) w
  bind t f := fun stack w => (t stack w).bind fun (a, stack) w => f a stack w

def stack : Task σ Stack :=
  fun stack w => .done (stack, stack) w

def onStack (f : Stack → Stack) : Task σ Unit :=
  fun stack w => .done ((), f stack) w

def world : Task σ (World σ) :=
  fun stack w => .done (w, stack) w

def onWorld (f : World σ → World σ) : Task σ Unit :=
  fun stack w => .done ((), stack) (f w)

def onCache (f : Cache → Cache) : Task σ Unit :=
  onWorld fun w => { w with cache := f w.cache }

/-- Ask a resolver until it answers. -/
def ask (resolver : Resolver σ) (args : List Value) : Task σ (Except String Value) :=
  fun stack w => (Call.mk resolver args 0).poll (fun r w => .done (r, stack) w) w

end Task

namespace Request

variable {σ : Type} (request : Request σ)

/-- Locate a path and record what the walk depends on. -/
def find (path : Path) : Task σ Found := do
  Task.onStack (Stack.record · (walkReads path))
  let w ← Task.world
  return .ofLocated (locate w.document path (w.context.merge request.context))

/-- Tell the hook of a failure. A value that stands in for the result keeps every result that waits
for it from being kept. -/
def recover (error : EvalError) (path : Path) : Task σ (Except Fault Value) := do
  match request.options.onError with
  | none => return .error ⟨error, true⟩
  | some hook =>
    Task.onWorld fun w => { w with reports := w.reports ++ [⟨error, path⟩] }
    match hook error path with
    | .raise => return .error ⟨error, true⟩
    | .fallback =>
      Task.onStack Stack.taint
      return .ok ((request.fallback.or request.options.fallback).getD .null)
    | .substitute value =>
      Task.onStack Stack.taint
      return .ok value

/-- Call a registered resolver. -/
def call (name : String) (args : List Value) : Task σ (Except Fault Value) := do
  match request.options.registry.get? name with
  | none =>
    let available := Registry.names request.options.registry ++ Builtin.names
    return .error (.new (.unknownResolver name (suggestions name available)))
  | some resolver =>
    match ← Task.ask resolver args with
    | .ok v => return .ok v
    | .error message => return .error (.new (.resolver name message))

/-- How an expression is evaluated: anew if asked so, else from what is kept if that is fresh. -/
abbrev Evaluator (σ : Type) : Type :=
  Site → Bool → Task σ (Except Fault Value)

/-- Carry out a plan with a way of evaluating expressions. -/
def follow {α : Type} (evaluate : Evaluator σ) : Plan α → Task σ (Except Fault α)
  | .done result => return result
  | .find path next => do follow evaluate (next (← request.find path))
  | .evaluate site fresh next => do
    match ← evaluate site fresh with
    | .ok v => follow evaluate (next v)
    | .error fault => return .error fault
  | .call name args next => do
    match ← request.call name args with
    | .ok v => follow evaluate (next v)
    | .error fault => return .error fault

/-- The key under which the result of an expression is kept. -/
def keyOf (site : Site) : CacheKey :=
  ⟨site.path, site.context.fingerprint⟩

/-- The kept result of an expression if it is fresh; what it read counts as read. -/
def keptResult (site : Site) : Task σ (Option Value) := do
  let w ← Task.world
  match w.cache.lookup (keyOf site) with
  | none => return none
  | some entry =>
    Task.onStack (Stack.record · entry.reads)
    return some entry.value

/-- The kept result unless the expression is to be evaluated anew. -/
def remembered (site : Site) (fresh : Bool) : Task σ (Option Value) :=
  if fresh then return none else keptResult site

/-- Keep the result that the innermost evaluation has come to, if it may be kept. -/
def store (site : Site) (epoch : Nat) (result : Except Fault Value) (frames : Stack) (c : Cache) :
    Cache :=
  match result, frames with
  | .ok v, frame :: _ =>
    if frame.keepable then c.insert (keyOf site) ⟨v, epoch, frame.reads⟩ else c
  | _, _ => c

/-- Evaluate an expression as the innermost one. -/
def compute (evaluate : Evaluator σ) (site : Site) : Task σ (Except Fault Value) := do
  Task.onStack (.enter site.path :: ·)
  let epoch := (← Task.world).cache.epoch
  Task.onCache Cache.begin
  let result ← request.follow evaluate (Plan.render site)
  let frames ← Task.stack
  Task.onStack Stack.pop
  Task.onCache fun c => store site epoch result frames (c.finish epoch)
  return result

/-- Evaluate an expression with a number of evaluations left to nest. An expression that waits for
itself is a cycle, however deep. -/
def evaluate : Nat → Evaluator σ
  | left, site, fresh => do
    match ← remembered site fresh with
    | some v => return .ok v
    | none =>
      let frames ← Task.stack
      if frames.holds site.path then
        request.recover (.cycle (frames.chainTo site.path)) site.path
      else
        match left with
        | 0 => request.recover (.depth request.options.maxDepth site.path) site.path
        | left + 1 =>
          match ← request.compute (evaluate left) site with
          | .ok v => return .ok v
          | .error fault =>
            if fault.reported then return .error fault
            else request.recover fault.error site.path

/-- The whole read of a path; a path without a value gives the fallback. -/
def read (path : Path) (fresh : Bool) (w : World σ) : Step σ (Except EvalError (Option Value)) :=
  (request.follow (request.evaluate request.options.maxDepth) (Plan.resolve fresh path) [] w).bind
    fun (result, _) w =>
      match result with
      | .error fault => .done (.error fault.error) w
      | .ok v => .done (.ok (v.or request.fallback)) w

/-- Whether a path names something. -/
def contains (path : Path) (w : World σ) : Step σ (Except EvalError Bool) :=
  (request.follow (request.evaluate request.options.maxDepth) (Plan.presence path) [] w).bind
    fun (result, _) w =>
      match result with
      | .error fault => .done (.error fault.error) w
      | .ok found => .done (.ok found) w

end Request

end LiveDoc
