import LiveDoc.Evaluation.Cache
import LiveDoc.Evaluation.Error
import LiveDoc.Table

/-! # What evaluations share

Reads run side by side on one document. A read goes on until a resolver keeps it waiting; what it
has done by then shows in the world that it hands over, and it goes on in the world that it is
given.
-/

namespace LiveDoc

/-- A function that expressions call by name. It is asked again until it answers; it may look at and
change a state of the host, `σ`. -/
structure Resolver (σ : Type) where
  /-- Ask with the arguments and the number of times the call was asked before. -/
  ask : List Value → Nat → σ → Option (Except String Value) × σ

/-- Resolvers by name. -/
abbrev Registry (σ : Type) := Table String (Resolver σ)

namespace Registry

variable {σ : Type}

def names (r : Registry σ) : List String :=
  r.entries.map (·.1)

end Registry

/-- What to do about a failed evaluation. -/
inductive ErrorAction where
  | raise
  /-- Use the fallback of the read, else that of the options, else `null`. -/
  | fallback
  | substitute (value : Value)
  deriving Repr

structure Options (σ : Type) where
  /-- How many expressions may wait for one another. -/
  maxDepth : Nat
  /-- The global context to begin with. -/
  context : Context
  registry : Registry σ
  /-- Decides about each failure, by the error and the expression that it arose in. -/
  onError : Option (EvalError → Path → ErrorAction)
  fallback : Option Value

namespace Options

variable {σ : Type}

/-- No resolvers, no hook, and a hundred evaluations deep at most. -/
def default : Options σ :=
  ⟨100, .empty, .empty, none, none⟩

end Options

/-- A failure as the hook was told of it. -/
structure Report where
  error : EvalError
  path : Path
  deriving Repr

structure World (σ : Type) where
  document : Value
  /-- The global context. -/
  context : Context
  cache : Cache
  /-- The failures that the hook was told of so far. -/
  reports : List Report
  /-- The state of the host. -/
  host : σ

/-- A call that has not been answered yet, and how often it was asked. -/
structure Call (σ : Type) where
  resolver : Resolver σ
  args : List Value
  asked : Nat

/-- A computation that has run as far as it can: to its end, or to a call without an answer. -/
inductive Step (σ α : Type) where
  | done (result : α) (world : World σ)
  | wait (call : Call σ) (next : Except String Value → World σ → Step σ α) (world : World σ)

namespace Step

variable {σ α β : Type}

def bind (s : Step σ α) (f : α → World σ → Step σ β) : Step σ β :=
  match s with
  | .done a w => f a w
  | .wait call next w => .wait call (fun r w => (next r w).bind f) w

/-- The world in which the computation rests. -/
def world : Step σ α → World σ
  | .done _ w => w
  | .wait _ _ w => w

end Step

namespace Call

variable {σ α : Type}

/-- Ask once more; with an answer the computation goes on, without one it keeps waiting. -/
def poll (c : Call σ) (next : Except String Value → World σ → Step σ α) (w : World σ) :
    Step σ α :=
  let (answer, host) := c.resolver.ask c.args c.asked w.host
  let w := { w with host := host }
  match answer with
  | some r => next r w
  | none => .wait { c with asked := c.asked + 1 } next w

end Call

end LiveDoc
