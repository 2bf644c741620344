import LiveDoc.Document.Load
import LiveDoc.Document.Remove
import LiveDoc.Evaluation.Read

/-! # Trees

A tree is a document with its options, its kept results and the reads under way. Equal reads that
are under way at once share one evaluation, unless something was written in between.
-/

namespace LiveDoc

/-- What a read ends with: a value, nothing, or a failure. -/
abbrev ReadResult := Except EvalError (Option Value)

/-- What may be asked of a read besides its path. -/
structure ReadOptions where
  fresh : Bool
  fallback : Option Value
  context : Option Context

def ReadOptions.default : ReadOptions :=
  ⟨false, none, none⟩

/-- What reads have in common that share an evaluation. -/
structure ReadKey where
  path : Path
  scope : String
  fallback : String
  generation : Nat
  deriving DecidableEq, Repr

/-- A computation apart from the world that it rests in. -/
inductive Progress (σ α : Type) where
  | finished (result : α)
  | waiting (call : Call σ) (next : Except String Value → World σ → Step σ α)

namespace Progress

variable {σ α : Type}

def ofStep : Step σ α → Progress σ α
  | .done result _ => .finished result
  | .wait call next _ => .waiting call next

def result? : Progress σ α → Option α
  | .finished result => some result
  | .waiting _ _ => none

/-- Ask the waiting call once and go on as far as possible. -/
def poll (p : Progress σ α) (w : World σ) : Step σ α :=
  match p with
  | .finished result => .done result w
  | .waiting call next => call.poll next w

end Progress

structure Tree (σ : Type) where
  options : Options σ
  world : World σ
  /-- How many writes and changes of context there were. -/
  generation : Nat
  /-- The evaluations that reads share, by number. -/
  shared : List (Progress σ ReadResult)
  /-- The numbers of the evaluations that a new read may join. -/
  inflight : List (ReadKey × Nat)

/-- A read that was begun: on its own, or by the number of the evaluation that it shares. -/
inductive Reading (σ : Type) where
  | alone (progress : Progress σ ReadResult)
  | joined (number : Nat)

namespace Tree

variable {σ : Type}

/-- A tree over a document with nothing read yet. -/
def ofDocument (document : Value) (options : Options σ) (host : σ) : Tree σ :=
  ⟨options, ⟨document, options.context, .empty, [], host⟩, 0, [], []⟩

/-- A tree over a value, whose root has to be a mapping. -/
def ofValue (value : Value) (options : Options σ) (host : σ) : Except LoadError (Tree σ) := do
  return ofDocument (← checkDocument value) options host

/-- A tree over the document that a JSON text writes. -/
def ofText (text : String) (options : Options σ) (host : σ) : Except LoadError (Tree σ) := do
  return ofDocument (← loadDocument text) options host

variable (t : Tree σ)

/-! ## Reads -/

def request (options : ReadOptions) : Request σ :=
  ⟨t.options, options.context.getD .empty, options.fallback⟩

def readKey (path : Path) (options : ReadOptions) : ReadKey :=
  ⟨path, (options.context.map Context.fingerprint).getD "",
    (options.fallback.map Value.json).getD "", t.generation⟩

/-- Put a step of a shared evaluation in its place. A finished one can be joined no more. -/
def keepShared (number : Nat) (step : Step σ ReadResult) : Tree σ :=
  let t := { t with world := step.world, shared := t.shared.set number (.ofStep step) }
  match step with
  | .done _ _ => { t with inflight := t.inflight.filter (·.2 != number) }
  | .wait _ _ _ => t

/-- Go on with a shared evaluation. -/
def pollShared (number : Nat) : Tree σ :=
  match t.shared[number]? with
  | none => t
  | some progress => t.keepShared number (progress.poll t.world)

/-- Begin a read of a path and go on as far as possible. -/
def startAt (path : Path) (options : ReadOptions) : Tree σ × Reading σ :=
  if options.fresh then
    let step := (t.request options).read path true t.world
    ({ t with world := step.world }, .alone (.ofStep step))
  else
    let key := t.readKey path options
    match t.inflight.lookup key with
    | some number => (t.pollShared number, .joined number)
    | none =>
      let number := t.shared.length
      let step := (t.request options).read path false t.world
      let t := { t with
        shared := t.shared ++ [Progress.ofStep step]
        inflight := t.inflight ++ [(key, number)] }
      (t.keepShared number step, .joined number)

/-- Begin a read of a path text from a place. A text that names no path fails at once. -/
def start (base : Path) (text : String) (options : ReadOptions) : Tree σ × Reading σ :=
  match base.resolve text with
  | .ok path => t.startAt path options
  | .error e => (t, .alone (.finished (.error (.ofPathError e))))

/-- Go on with a read as far as possible. -/
def poll (reading : Reading σ) : Tree σ × Reading σ :=
  match reading with
  | .alone progress =>
    let step := progress.poll t.world
    ({ t with world := step.world }, .alone (.ofStep step))
  | .joined number => (t.pollShared number, .joined number)

/-- What a read ended with, if it has ended. -/
def result? (reading : Reading σ) : Option ReadResult :=
  match reading with
  | .alone progress => progress.result?
  | .joined number => (t.shared[number]?).bind Progress.result?

/-- Go on with a read until it ends, at most the given number of times. -/
def settle : Nat → Tree σ → Reading σ → Tree σ × Option ReadResult
  | 0, t, reading => (t, t.result? reading)
  | n + 1, t, reading =>
    match t.result? reading with
    | some r => (t, some r)
    | none =>
      let (t, reading) := t.poll reading
      settle n t reading

/-- How often a call is asked before a read gives up on it. -/
def patience : Nat :=
  4294967296

/-- A whole read; nothing comes of it only if a resolver never answers. -/
def getAt (path : Path) (options : ReadOptions) : Tree σ × Option ReadResult :=
  let (t, reading) := t.startAt path options
  settle patience t reading

/-- A whole read of a path text from a place. -/
def get (base : Path) (text : String) (options : ReadOptions) : Tree σ × Option ReadResult :=
  let (t, reading) := t.start base text options
  settle patience t reading

/-- Go on once with each read that has not ended, in order. -/
def pollEach : List (Reading σ) → Tree σ → Tree σ × List (Reading σ)
  | [], t => (t, [])
  | r :: rest, t =>
    let (t, r) := if (t.result? r).isSome then (t, r) else t.poll r
    let (t, rs) := pollEach rest t
    (t, r :: rs)

/-- Rounds of polls until all reads have ended, at most the given number. A read takes what its
evaluation had come to when it was its turn. -/
def rounds : Nat → Tree σ → List (Reading σ) → Tree σ × List (Option ReadResult)
  | 0, t, rs => (t, rs.map t.result?)
  | n + 1, t, rs =>
    if rs.all fun r => (t.result? r).isSome then (t, rs.map t.result?)
    else
      let (t, rs) := pollEach rs t
      rounds n t rs

/-- Begin reads in order. -/
def startEach : List (Path × String × ReadOptions) → Tree σ → Tree σ × List (Reading σ)
  | [], t => (t, [])
  | (base, text, options) :: rest, t =>
    let (t, r) := t.start base text options
    let (t, rs) := startEach rest t
    (t, r :: rs)

/-- Reads side by side: all are begun, and then polled in rounds until all have ended. -/
def together (reads : List (Path × String × ReadOptions)) :
    Tree σ × List (Option ReadResult) :=
  let (t, rs) := startEach reads t
  rounds patience t rs

/-- Go on with a step until it ends, at most the given number of times. -/
def finish {α : Type} : Nat → Step σ α → Option α × World σ
  | _, .done a w => (some a, w)
  | 0, .wait _ _ w => (none, w)
  | n + 1, .wait call next w => finish n (call.poll next w)

/-- Whether a path names something. -/
def hasAt (path : Path) : Tree σ × Option (Except EvalError Bool) :=
  let (result, w) := finish patience ((t.request .default).contains path t.world)
  ({ t with world := w }, result)

def has (base : Path) (text : String) : Tree σ × Option (Except EvalError Bool) :=
  match base.resolve text with
  | .ok path => t.hasAt path
  | .error e => (t, some (.error (.ofPathError e)))

/-! ## Looking without evaluating -/

/-- The names of the slots of a mapping, or the indices of an array. -/
def keysAt (path : Path) : List String :=
  match locate t.world.document path t.world.context with
  | .static _ (.obj members) _ => baseNames members
  | .static _ (.arr items) _ => (List.range items.length).map toString
  | _ => []

def keys (text : String) : Except EvalError (List String) :=
  match Path.root.resolve text with
  | .ok path => .ok (t.keysAt path)
  | .error e => .error (.ofPathError e)

/-- The state of a slot. -/
inductive Field where
  /-- A static value, or the kept result of an expression. -/
  | value (v : Value)
  | node (path : Path)
  /-- An expression without a kept result. -/
  | unset
  | absent

namespace Field

/-- Two nodes are the same if they lie at the same place. -/
def same : Field → Field → Bool
  | .value v, .value w => v.same w
  | .node p, .node q => p == q
  | .unset, .unset => true
  | .absent, .absent => true
  | _, _ => false

end Field

def fieldAt (path : Path) : Field :=
  match locate t.world.document path t.world.context with
  | .missing => .absent
  | .static _ value _ => if value.isObject then .node path else .value value
  | .expression site =>
    match t.world.cache.lookup (Request.keyOf site) with
    | some entry => if site.rest.isEmpty then .value entry.value else .unset
    | none => .unset

def field (base : Path) (text : String) : Field :=
  match base.resolve text with
  | .ok path => t.fieldAt path
  | .error _ => .absent

/-- The document, its expressions unevaluated. -/
def document : Value :=
  t.world.document

def context : Context :=
  t.world.context

def expressions : List Path :=
  expressionPaths t.world.document

/-- The variant groups under a context over the global one. -/
def groups (context : Context) : List VariantGroup :=
  variantGroups t.world.document (t.world.context.merge context)

/-- The number of kept results, stale ones included. -/
def kept : Nat :=
  t.world.cache.size

/-! ## Writes -/

/-- Replace the document after a write at a path. -/
def written (document : Value) (path : Path) : Tree σ :=
  { t with
    world := { t.world with document := document, cache := t.world.cache.invalidate path }
    generation := t.generation + 1 }

def setAt (path : Path) (value : Value) : Tree σ × Except WriteError Unit :=
  match write t.world.document path value t.world.context with
  | (document, .ok ()) => (t.written document path, .ok ())
  | (document, .error e) => ({ t with world := { t.world with document := document } }, .error e)

def set (base : Path) (text : String) (value : Value) : Tree σ × Except WriteError Unit :=
  match base.resolve text with
  | .ok path => t.setAt path value
  | .error e => (t, .error (.badPath e))

/-- Remove a slot; the answer says whether there was something to remove. -/
def deleteAt (path : Path) : Tree σ × Except WriteError Bool :=
  match remove t.world.document path with
  | .error e => (t, .error e)
  | .ok none => (t, .ok false)
  | .ok (some document) => (t.written document path, .ok true)

def delete (base : Path) (text : String) : Tree σ × Except WriteError Bool :=
  match base.resolve text with
  | .ok path => t.deleteAt path
  | .error e => (t, .error (.badPath e))

/-- Put an empty mapping in place of what a path names. -/
def clearAt (path : Path) : Tree σ × Except WriteError Unit :=
  if path.segments.isEmpty then (t.written (.obj []) path, .ok ())
  else t.setAt path (.obj [])

def clear (base : Path) (text : String) : Tree σ × Except WriteError Unit :=
  match base.resolve text with
  | .ok path => t.clearAt path
  | .error e => (t, .error (.badPath e))

/-- Drop the kept results. -/
def clearCache : Tree σ :=
  { t with
    world := { t.world with cache := t.world.cache.clear }
    generation := t.generation + 1 }

/-- Replace the global context; the kept results are dropped. -/
def setContext (context : Context) : Tree σ :=
  { t with
    world := { t.world with context := context, cache := t.world.cache.clear }
    generation := t.generation + 1 }

/-- Take over the host and the reports of another tree with the same options. -/
def takeOver (other : Tree σ) : Tree σ :=
  { t with world := { t.world with host := other.world.host, reports := other.world.reports } }

end Tree

end LiveDoc
