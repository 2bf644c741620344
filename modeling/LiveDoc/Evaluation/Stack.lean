import LiveDoc.Evaluation.Error

/-! # Evaluations under way

The expressions that wait for one another in a read, the innermost first, each with what has been
read for it so far.
-/

namespace LiveDoc

structure Frame where
  path : Path
  reads : List Path
  /-- Whether the result may be kept; not so once a value has stood in for a failure. -/
  keepable : Bool
  deriving Repr

/-- The frames of a read, the innermost first. -/
abbrev Stack := List Frame

namespace Frame

/-- Whatever evaluates an expression has read its slot. -/
def enter (path : Path) : Frame :=
  ⟨path, [path.logical], true⟩

/-- Add slots that were read; a slot counts once. -/
def record (f : Frame) (slots : List Path) : Frame :=
  { f with reads := slots.foldl (fun reads slot => reads.insert slot) f.reads }

/-- Fold what an inner evaluation read into the one that waits for it. -/
def absorb (f inner : Frame) : Frame :=
  { f.record inner.reads with keepable := f.keepable && inner.keepable }

end Frame

namespace Stack

variable (s : Stack)

/-- Whether an expression is being evaluated. -/
def holds (path : Path) : Bool :=
  s.any (·.path == path)

/-- The expressions from the first place of a path up to the innermost, then the path again. -/
def chainTo (path : Path) : List Path :=
  ((s.map (·.path)).reverse.dropWhile (· != path)) ++ [path]

/-- Record slots as read by the innermost evaluation. -/
def record (slots : List Path) : Stack :=
  match s with
  | [] => []
  | f :: rest => f.record slots :: rest

/-- Leave the innermost evaluation. -/
def pop : Stack :=
  match s with
  | [] => []
  | [_] => []
  | inner :: f :: rest => f.absorb inner :: rest

/-- Let no result under way be kept. -/
def taint : Stack :=
  s.map fun f => { f with keepable := false }

end Stack

end LiveDoc
