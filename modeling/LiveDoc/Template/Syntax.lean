import LiveDoc.Value.Basic

/-! # Templates and expressions

A template is text with expressions in spans. A reference names a place from the mapping that owns
the template: first some levels up, then down by keys and computed indices.
-/

namespace LiveDoc

inductive UnaryOp where
  | not
  | neg
  deriving DecidableEq, Repr

inductive BinaryOp where
  | add
  | sub
  | mul
  | div
  | rem
  | eq
  | ne
  | lt
  | le
  | gt
  | ge
  deriving DecidableEq, Repr

/-- The operators that may leave their right side alone. -/
inductive LogicalOp where
  | and
  | or
  | coalesce
  deriving DecidableEq, Repr

mutual

inductive Expr where
  | lit (value : Value)
  /-- A template inside an expression; its value is always a text. -/
  | template (parts : List Part)
  | array (items : List Expr)
  | object (entries : List (String × Expr))
  | ref (parents : Nat) (steps : List RefStep)
  /-- A reference whose target is evaluated anew. -/
  | fresh (parents : Nat) (steps : List RefStep)
  | call (name : String) (args : List Expr)
  | unary (op : UnaryOp) (operand : Expr)
  | binary (op : BinaryOp) (left right : Expr)
  | logical (op : LogicalOp) (left right : Expr)
  | conditional (condition yes no : Expr)
  | member (object : Expr) (key : String)
  | index (object index : Expr)

inductive Part where
  | text (s : String)
  | span (e : Expr)

inductive RefStep where
  | key (name : String)
  | at (index : Expr)

end

abbrev Template := List Part

namespace Template

/-- Put a part in front; two texts side by side become one. -/
def consPart : Part → Template → Template
  | .text s, .text t :: rest => .text (s ++ t) :: rest
  | p, rest => p :: rest

/-- The template of a list of parts, with no two texts side by side. -/
def ofParts (parts : List Part) : Template :=
  parts.foldr consPart []

/-- The expression of a template that is one span and nothing else. -/
def single? : Template → Option Expr
  | [.span e] => some e
  | _ => none

end Template

end LiveDoc
