import LiveDoc.Evaluation.Builtin
import LiveDoc.Evaluation.Operator
import LiveDoc.Value.Access

/-! # Expressions as queries

What an expression means is a tree of questions: what a path holds, how long the array at a path is,
what a resolver answers. The next question depends on the answers so far; a question that fails ends
the query. Whoever asks need not know where the answers come from, so the same tree serves
evaluation with memory and without.
-/

namespace LiveDoc

inductive Query (α : Type) where
  | done (result : Except Fault α)
  /-- The value at a path, if there is one; `fresh` asks for it to be evaluated anew. -/
  | read (path : Path) (fresh : Bool) (next : Option Value → Query α)
  /-- The length of the array at a path, if there is an array. -/
  | measure (path : Path) (next : Option Nat → Query α)
  | call (name : String) (args : List Value) (next : Value → Query α)

namespace Query

variable {α β : Type}

def bind (q : Query α) (f : α → Query β) : Query β :=
  match q with
  | .done (.ok a) => f a
  | .done (.error fault) => .done (.error fault)
  | .read path fresh next => .read path fresh fun v => (next v).bind f
  | .measure path next => .measure path fun n => (next n).bind f
  | .call name args next => .call name args fun v => (next v).bind f

instance : Monad Query where
  pure a := .done (.ok a)
  bind := bind

def fail (error : EvalError) : Query α :=
  .done (.error (.new error))

def lift : Except EvalError α → Query α
  | .ok a => pure a
  | .error e => fail e

/-- Where an expression stands: the mapping that owns it and the context in force there. -/
structure Standpoint where
  owner : Path
  context : Context

/-- The key or index that the value in brackets names. -/
def indexKey : Value → Except EvalError String
  | .str key => .ok key
  | .num (.int i) => .ok (toString i)
  | v => .error (.type (.indexedBy v.kind))

/-- The value of the reserved name for the context, or of a part of it. -/
def contextValue (context : Context) (rest : List String) : Value :=
  ((Value.obj context.toMembers).descend? rest).getD .null

/-- Whether one of the segments at the given places is an index behind the end of an array. -/
def pastEnd (path : Path) : List Nat → Query Bool
  | [] => return false
  | place :: places => do
    match (path.segments[place]?).bind Numeral.index? with
    | none => pastEnd path places
    | some index =>
      match ← Query.measure (path.take place) pure with
      | some size => if size ≤ index then return true else pastEnd path places
      | none => pastEnd path places

/-- The places, counted from the given one, of the segments that may index an array. -/
def indexPlaces (place : Nat) : List String → List Nat
  | [] => []
  | s :: rest =>
    if (Numeral.index? s).isSome then place :: indexPlaces (place + 1) rest
    else indexPlaces (place + 1) rest

/-- The value that a reference with known segments names. A path that runs off the end of an array
leads to `null`; any other path without a value is not found. -/
def follow (here : Standpoint) (parents : Nat) (segments : List String) (fresh : Bool) :
    Query Value := do
  if parents = 0 ∧ segments.head? = some contextKey then
    return contextValue here.context segments.tail
  else
    let base := here.owner.take (here.owner.length - parents)
    let path := base.append segments
    match ← Query.read path fresh pure with
    | some v => return v
    | none =>
      if ← pastEnd path (indexPlaces base.length segments) then return .null
      else fail (.notFound path)

/-- What is said of a reference that climbs too far. -/
def climbText (parents : Nat) (owner : Path) : String :=
  String.join (List.replicate parents "^.") ++ owner.text

/-- Call a built-in function or else a resolver. -/
def callNamed (here : Standpoint) (name : String) (args : List Value) : Query Value :=
  match Builtin.ofName? name with
  | some b => lift (b.call args here.context)
  | none => .call name args pure

/-- The left side of `??`: a reference that is not found counts as `null`. What fails in another
expression is no such reference. -/
def orNull : Query Value → Query Value
  | .done (.ok v) => .done (.ok v)
  | .done (.error fault) => .done (if fault.missing then .ok .null else .error fault)
  | .read path fresh next => .read path fresh fun v => orNull (next v)
  | .measure path next => .measure path fun n => orNull (next n)
  | .call name args next => .call name args fun v => orNull (next v)

/-- Whether an operator is content with its left side. -/
def settles (op : LogicalOp) (left : Value) : Bool :=
  match op with
  | .and => !left.truthy
  | .or => left.truthy
  | .coalesce => left.kind != .null

mutual

/-- The value of an expression. -/
def ofExpr (here : Standpoint) : Expr → Query Value
  | .lit v => return v
  | .template parts => return .str (← ofTemplate here parts).render
  | .array items => return .arr (← ofExprs here items)
  | .object entries => return .obj (Assoc.ofList (← ofEntries here entries))
  | .ref parents steps => ofReference here parents steps false
  | .fresh parents steps => ofReference here parents steps true
  | .call name args => do callNamed here name (← ofExprs here args)
  | .unary op operand => do lift (Operator.unary op (← ofExpr here operand))
  | .binary op left right => do
    let l ← ofExpr here left
    let r ← ofExpr here right
    lift (Operator.binary op l r)
  | .logical op left right => do
    let l ← match op with
      | .coalesce => orNull (ofExpr here left)
      | _ => ofExpr here left
    if settles op l then return l else ofExpr here right
  | .conditional condition yes no => do
    if (← ofExpr here condition).truthy then ofExpr here yes else ofExpr here no
  | .member object key => return ((← ofExpr here object).child? key).getD .null
  | .index object index => do
    let v ← ofExpr here object
    let i ← ofExpr here index
    return (v.child? (← lift (indexKey i))).getD .null

/-- The value of a template: that of its expression if it is one span, else a text. -/
def ofTemplate (here : Standpoint) : List Part → Query Value
  | [.span e] => ofExpr here e
  | parts => return .str (← ofParts here parts)

/-- The text of the parts of a template, put together. -/
def ofParts (here : Standpoint) : List Part → Query String
  | [] => return ""
  | .text s :: rest => return s ++ (← ofParts here rest)
  | .span e :: rest => do
    let s := (← ofExpr here e).render
    return s ++ (← ofParts here rest)

def ofExprs (here : Standpoint) : List Expr → Query (List Value)
  | [] => return []
  | e :: rest => do
    let v ← ofExpr here e
    return v :: (← ofExprs here rest)

def ofEntries (here : Standpoint) : List (String × Expr) → Query (List (String × Value))
  | [] => return []
  | (key, e) :: rest => do
    let v ← ofExpr here e
    return (key, v) :: (← ofEntries here rest)

/-- The segments of a reference. -/
def ofSteps (here : Standpoint) : List RefStep → Query (List String)
  | [] => return []
  | .key name :: rest => return name :: (← ofSteps here rest)
  | .at e :: rest => do
    let key ← lift (indexKey (← ofExpr here e))
    return key :: (← ofSteps here rest)

/-- The value of a reference; how far it climbs is checked before its indices are evaluated. -/
def ofReference (here : Standpoint) (parents : Nat) (steps : List RefStep) (fresh : Bool) :
    Query Value := do
  if here.owner.length < parents then fail (.aboveRoot (climbText parents here.owner))
  else
    let segments ← ofSteps here steps
    follow here parents segments fresh

end

end Query

end LiveDoc
