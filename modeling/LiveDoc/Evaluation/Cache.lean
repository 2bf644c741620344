import LiveDoc.Context
import LiveDoc.Assoc

/-! # Kept results

The result of an expression is kept with the slots that its evaluation read. Every write goes up one
epoch and stamps the written slot and, as touched, every slot on the way to it. A result is stale
when something it read was touched after its evaluation began, or when something around what it
read was written. Stamps that can make nothing stale any more are dropped.
-/

namespace LiveDoc

/-- An expression by its place, under a context by its fingerprint. -/
structure CacheKey where
  path : Path
  scope : String
  deriving DecidableEq, Repr

structure CacheEntry where
  value : Value
  /-- The epoch in which the evaluation began. -/
  epoch : Nat
  /-- The slots that the evaluation read, also through other expressions. -/
  reads : List Path
  deriving Repr

/-- The last epoch in which something happened to a slot. -/
abbrev Stamps := List (Path × Nat)

structure Cache where
  entries : List (CacheKey × CacheEntry)
  epoch : Nat
  written : Stamps
  touched : Stamps
  /-- The epochs in which the evaluations that still run began. -/
  running : List Nat
  deriving Repr

namespace Stamps

/-- Whether a slot has a stamp later than an epoch. -/
def after (stamps : Stamps) (slot : Path) (epoch : Nat) : Bool :=
  (stamps.lookup slot).any (epoch < ·)

def mark (stamps : Stamps) (slot : Path) (epoch : Nat) : Stamps :=
  Assoc.put slot epoch stamps

/-- The stamps later than an epoch. -/
def since (stamps : Stamps) (epoch : Nat) : Stamps :=
  stamps.filter (epoch < ·.2)

end Stamps

namespace Cache

def empty : Cache :=
  ⟨[], 0, [], [], []⟩

variable (c : Cache)

/-- Begin an evaluation: it belongs to the present epoch. -/
def begin : Cache :=
  { c with running := c.epoch :: c.running }

/-- End an evaluation that began in an epoch. -/
def finish (epoch : Nat) : Cache :=
  { c with running := c.running.erase epoch }

/-- Whether nothing that an entry read, around it or below it, has changed since it was begun. -/
def isFresh (entry : CacheEntry) : Bool :=
  entry.reads.all fun slot =>
    !Stamps.after c.touched slot entry.epoch &&
      !(List.range slot.length).any fun n => Stamps.after c.written (slot.take n) entry.epoch

/-- The entry of a key, unless it is stale. -/
def lookup (key : CacheKey) : Option CacheEntry :=
  (c.entries.lookup key).filter c.isFresh

def insert (key : CacheKey) (entry : CacheEntry) : Cache :=
  { c with entries := Assoc.put key entry c.entries }

/-- The least epoch to which an entry or a running evaluation belongs. -/
def floor? : Option Nat :=
  (c.entries.map (·.2.epoch) ++ c.running).min?

/-- Drop the stamps that no entry, kept or to come, can be stale by. -/
def prune : Cache :=
  match c.floor? with
  | some floor => { c with written := Stamps.since c.written floor
                           touched := Stamps.since c.touched floor }
  | none => { c with written := [], touched := [] }

/-- Record a write at a path, and drop the results of the expressions in its slot. -/
def invalidate (path : Path) : Cache :=
  let slot := path.logical
  let epoch := c.epoch + 1
  prune
    { c with
      epoch := epoch
      written := Stamps.mark c.written slot epoch
      touched := slot.stages.foldl (fun stamps stage => Stamps.mark stamps stage epoch) c.touched
      entries := c.entries.filter fun (key, _) => key.path.logical != slot }

/-- Drop every result. -/
def clear : Cache :=
  prune { c with entries := [] }

def size : Nat :=
  c.entries.length

end Cache

end LiveDoc
