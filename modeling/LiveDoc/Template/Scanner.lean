/-! # Scanners

A scanner reads from the front of a text. It accepts with what is left; or it refuses, and another
scanner may be tried; or it breaks off, and nothing else is tried. A failure carries the text in
front of which it arose.
-/

namespace LiveDoc

inductive Outcome (α : Type) where
  | accept (a : α) (rest : List Char)
  | refuse (rest : List Char)
  | broken (rest : List Char)
  deriving Repr

def Scanner (α : Type) : Type :=
  List Char → Outcome α

namespace Scanner

variable {α β : Type}

instance : Monad Scanner where
  pure a := fun cs => .accept a cs
  bind p f := fun cs =>
    match p cs with
    | .accept a rest => f a rest
    | .refuse rest => .refuse rest
    | .broken rest => .broken rest

/-- Refuse where the text stands. -/
def fail : Scanner α :=
  fun cs => .refuse cs

/-- Try a scanner; where it refuses, the other starts from the same place. -/
def orElse (p q : Scanner α) : Scanner α :=
  fun cs =>
    match p cs with
    | .refuse _ => q cs
    | outcome => outcome

/-- The first scanner of a list that does not refuse. -/
def firstOf : List (Scanner α) → Scanner α
  | [] => fail
  | [p] => p
  | p :: ps => p.orElse (firstOf ps)

/-- Where the scanner refuses, nothing is read. -/
def opt (p : Scanner α) : Scanner (Option α) :=
  fun cs =>
    match p cs with
    | .accept a rest => .accept (some a) rest
    | .refuse _ => .accept none cs
    | .broken rest => .broken rest

/-- A refusal breaks off. -/
def commit (p : Scanner α) : Scanner α :=
  fun cs =>
    match p cs with
    | .refuse rest => .broken rest
    | outcome => outcome

/-- Repeat up to the first refusal, at most the given number of times. -/
def upTo (p : Scanner α) : Nat → Scanner (List α)
  | 0 => pure []
  | n + 1 => do
    match ← p.opt with
    | none => pure []
    | some a => return a :: (← upTo p n)

/-- Repeat up to the first refusal. The scanner reads something whenever it accepts. -/
def many (p : Scanner α) : Scanner (List α) :=
  fun cs => p.upTo cs.length cs

/-- One or more; the first is not optional. -/
def some₁ (p : Scanner α) : Scanner (List α) := do
  let a ← p
  return a :: (← many p)

/-- Items with separators between them. A separator with no item after it is left alone. -/
def separatedBy (sep : Scanner β) (p : Scanner α) : Scanner (List α) := do
  match ← p.opt with
  | none => pure []
  | some a => return a :: (← many (do let _ ← sep; p))

/-- Operands joined by operators from the left, at most the given number of operators. Once an
operator is read its right operand has to follow. -/
def chainFrom (operand : Scanner α) (operator : Scanner (α → α → α)) : Nat → α → Scanner α
  | 0, left => pure left
  | n + 1, left => do
    match ← operator.opt with
    | none => pure left
    | some join => do
      let right ← operand
      chainFrom operand operator n (join left right)

def chain (operand : Scanner α) (operator : Scanner (α → α → α)) : Scanner α := do
  let left ← operand
  fun cs => chainFrom operand operator cs.length left cs

/-- One character of a kind. -/
def one (holds : Char → Bool) : Scanner Char
  | c :: rest => if holds c then .accept c rest else .refuse (c :: rest)
  | [] => .refuse []

def char (c : Char) : Scanner Unit := do
  let _ ← one (· == c)

/-- The characters of a token; they are read together or not at all. -/
def token (t : List Char) : Scanner Unit :=
  fun cs => if t.isPrefixOf cs then .accept () (cs.drop t.length) else .refuse cs

/-- All characters of a kind from here on. -/
def run (holds : Char → Bool) : Scanner (List Char) :=
  fun cs => .accept (cs.takeWhile holds) (cs.dropWhile holds)

/-- At least one character of a kind. -/
def run₁ (holds : Char → Bool) : Scanner (List Char) :=
  fun cs =>
    match cs.takeWhile holds with
    | [] => .refuse cs
    | taken => .accept taken (cs.dropWhile holds)

/-- Blanks inside expressions. -/
def space : Scanner Unit := do
  let _ ← run fun c => c == ' ' || c == '\t' || c == '\r' || c == '\n'

/-- A scanner with blanks allowed on either side. -/
def spaced (p : Scanner α) : Scanner α := do
  space
  let a ← p
  space
  return a

end Scanner

end LiveDoc
