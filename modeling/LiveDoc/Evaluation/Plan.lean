import LiveDoc.Document.Survey
import LiveDoc.Evaluation.Query

/-! # Reading as a plan

What a read does with a document is a tree of steps: locate a path, have an expression evaluated,
call a resolver. The next step depends on the answers so far; a failure ends the plan. A plan does
not say where the value of an expression comes from, from memory or from its template.
-/

namespace LiveDoc

/-- What a path names, without the values of the parts below it. -/
inductive Found where
  | missing
  | scalar (value : Value)
  /-- The slots of a mapping, each with the path of the key that fills it, and how far down a read
  of them may go. -/
  | mapping (slots : List (String × Path)) (levels : Nat)
  | list (items : List Path) (levels : Nat)
  | expression (site : Site)

namespace Found

/-- The slots of a mapping that a key fills under a context. -/
def slotsOf (path : Path) (context : Context) (members : Members) : List (String × Path) :=
  let keys := members.map (·.1)
  (baseNames members).filterMap fun name =>
    (resolveVariant name context keys).map fun key => (name, path.child key)

def itemsOf (path : Path) (items : List Value) : List Path :=
  (List.range items.length).map fun i => path.child (toString i)

/-- The levels a read of the parts of a value may go down: those of the value, and one more for every
write that may come while it waits. No run makes so many writes. -/
def levelsOf (value : Value) : Nat :=
  value.depth + 4294967296

def ofLocated : Located → Found
  | .missing => .missing
  | .expression site => .expression site
  | .static path (.obj members) context =>
    .mapping (slotsOf path context members) (levelsOf (.obj members))
  | .static path (.arr items) _ => .list (itemsOf path items) (levelsOf (.arr items))
  | .static _ value _ => .scalar value

def levels : Found → Nat
  | .mapping _ levels | .list _ levels => levels
  | _ => 0

end Found

/-- The slots that a walk along a path depends on: the path's own, and the context of every mapping
on the way. -/
def walkReads (path : Path) : List Path :=
  let slot := path.logical
  ((List.range slot.length).map fun n => (slot.take n).child contextKey) ++ [slot]

inductive Plan (α : Type) where
  | done (result : Except Fault α)
  | find (path : Path) (next : Found → Plan α)
  /-- Have an expression evaluated; `fresh` asks for it to be done anew. -/
  | evaluate (site : Site) (fresh : Bool) (next : Value → Plan α)
  | call (name : String) (args : List Value) (next : Value → Plan α)

namespace Plan

variable {α β : Type}

def bind (p : Plan α) (f : α → Plan β) : Plan β :=
  match p with
  | .done (.ok a) => f a
  | .done (.error fault) => .done (.error fault)
  | .find path next => .find path fun found => (next found).bind f
  | .evaluate site fresh next => .evaluate site fresh fun v => (next v).bind f
  | .call name args next => .call name args fun v => (next v).bind f

instance : Monad Plan where
  pure a := .done (.ok a)
  bind := bind

/-- Do the same for each item and put the results together in order. -/
def gather (item : α → Plan β) : List α → Plan (List β)
  | [] => return []
  | a :: rest => do
    let b ← item a
    return b :: (← gather item rest)

/-- Read what was found, whose parts lie at most `levels` deep. A part that is gone by the time its
turn comes leaves `null`. -/
def descend (fresh : Bool) : Nat → Found → Plan (Option Value)
  | _, .missing => return none
  | _, .scalar v => return some v
  | _, .expression site => .evaluate site fresh fun v => return v.descend? site.rest
  | levels + 1, .mapping slots _ => do
    let members ← gather (fun (name, path) => do
      return (name, (← Plan.find path (descend fresh levels)).getD .null)) slots
    return some (.obj (Assoc.ofList members))
  | levels + 1, .list items _ => do
    let values ← gather (fun path => do
      return (← Plan.find path (descend fresh levels)).getD .null) items
    return some (.arr values)
  | 0, .mapping _ _ | 0, .list _ _ => return none

/-- Read a path to the bottom. -/
def resolve (fresh : Bool) (path : Path) : Plan (Option Value) :=
  .find path fun found => descend fresh found.levels found

/-- The length of the array at a path, which an expression may give. -/
def measure (path : Path) : Plan (Option Nat) :=
  .find path fun
    | .list items _ => return some items.length
    | .expression site => .evaluate site false fun v =>
      match v.descend? site.rest with
      | some (.arr items) => return some items.length
      | _ => return none
    | _ => return none

/-- Answer the questions of a query in turn. -/
def answer : Query α → Plan α
  | .done result => .done result
  | .read path fresh next => (resolve fresh path).bind fun v => answer (next v)
  | .measure path next => (measure path).bind fun n => answer (next n)
  | .call name args next => .call name args fun v => answer (next v)

/-- Run the template of an expression. -/
def render (site : Site) : Plan Value :=
  match Template.parse site.text with
  | .error cause => .done (.error (.new (.syntaxError site.path cause)))
  | .ok t => answer (Query.ofTemplate ⟨site.owner, site.context⟩ t)

/-- Find out whether a path names something. Only an expression that the path runs through is
evaluated. -/
def presence (path : Path) : Plan Bool :=
  .find path fun
    | .missing => return false
    | .expression site =>
      if site.rest.isEmpty then return true
      else .evaluate site false fun v => return (v.descend? site.rest).isSome
    | _ => return true

end Plan

end LiveDoc
