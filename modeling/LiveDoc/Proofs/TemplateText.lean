import LiveDoc.Proofs.NumberText
import LiveDoc.Proofs.Scanning
import LiveDoc.Template.Parse

/-! # Writing templates

A template written out: every operand in parentheses, texts in quotes or between spans with their own
signs behind a backslash.
-/

namespace LiveDoc

/-! ## Texts -/

/-- A character of a text in quotes. -/
def quotedChar : Char → List Char
  | '\n' => ['\x5c', 'n']
  | '\t' => ['\x5c', 't']
  | '\r' => ['\x5c', 'r']
  | c => if c = '\x27' ∨ c = '\x5c' then ['\x5c', c] else [c]

def quotedText (s : String) : List Char :=
  '\x27' :: (s.toList.flatMap quotedChar ++ ['\x27'])

/-- The characters that have a meaning of their own between spans. -/
def isSign (c : Char) : Bool :=
  c == '$' || c == '\x5c' || c == Grammar.backTick

/-- A character of a text between spans. -/
def plainChar (c : Char) : List Char :=
  if isSign c then ['\x5c', c] else [c]

def plainText (s : String) : List Char :=
  s.toList.flatMap plainChar

/-- A literal. Arrays and objects are none; they have a syntax of their own. -/
def Value.write : Value → List Char
  | .null => "null".toList
  | .bool true => "true".toList
  | .bool false => "false".toList
  | .num n => n.text.toList
  | .str s => quotedText s
  | .arr _ => []
  | .obj _ => []

/-- Items with commas between them. -/
def listed : List (List Char) → List Char
  | [] => []
  | t :: ts => t ++ ts.flatMap ([',', ' '] ++ ·)

def inParens (text : List Char) : List Char :=
  '(' :: (text ++ [')'])

/-! ## Operators -/

def UnaryOp.write : UnaryOp → Char
  | .not => '!'
  | .neg => '-'

def BinaryOp.write : BinaryOp → List Char
  | .add => ['+']
  | .sub => ['-']
  | .mul => ['*']
  | .div => ['/']
  | .rem => ['%']
  | .eq => ['=', '=']
  | .ne => ['!', '=']
  | .lt => ['<']
  | .le => ['<', '=']
  | .gt => ['>']
  | .ge => ['>', '=']

def LogicalOp.write : LogicalOp → List Char
  | .and => ['&', '&']
  | .or => ['|', '|']
  | .coalesce => ['?', '?']

/-! ## Expressions -/

def writeParents (parents : Nat) : List Char :=
  (List.replicate parents ()).flatMap fun _ => ['^', '.']

mutual

def Expr.write : Expr → List Char
  | .lit v => v.write
  | .template parts => Grammar.backTick :: (Part.writeAll parts ++ [Grammar.backTick])
  | .array items => '[' :: (listed (Expr.writeEach items) ++ [']'])
  | .object entries => '\x7b' :: (listed (Expr.writeEntries entries) ++ ['\x7d'])
  -- The first step has no dot.
  | .ref parents steps => writeParents parents ++ (RefStep.writeAll steps).drop 1
  | .fresh parents steps =>
    "fresh".toList ++ inParens (writeParents parents ++ (RefStep.writeAll steps).drop 1)
  | .call name args => name.toList ++ inParens (listed (Expr.writeEach args))
  | .unary op e => op.write :: inParens e.write
  | .binary op l r => inParens l.write ++ ' ' :: (op.write ++ ' ' :: inParens r.write)
  | .logical op l r => inParens l.write ++ ' ' :: (op.write ++ ' ' :: inParens r.write)
  | .conditional c y n =>
    inParens c.write ++ ' ' :: '?' :: ' ' :: (inParens y.write ++ ' ' :: ':' :: ' ' :: inParens n.write)
  | .member o k => inParens o.write ++ '.' :: k.toList
  | .index o i => inParens o.write ++ '[' :: (i.write ++ [']'])

def Expr.writeEach : List Expr → List (List Char)
  | [] => []
  | e :: es => e.write :: Expr.writeEach es

def Expr.writeEntries : List (String × Expr) → List (List Char)
  | [] => []
  | (k, e) :: rest => (quotedText k ++ ':' :: ' ' :: e.write) :: Expr.writeEntries rest

def Part.writeAll : List Part → List Char
  | [] => []
  | .text s :: rest => plainText s ++ Part.writeAll rest
  | .span e :: rest => '$' :: '\x7b' :: (e.write ++ '\x7d' :: Part.writeAll rest)

def RefStep.writeAll : List RefStep → List Char
  | [] => []
  | .key k :: rest => '.' :: (k.toList ++ RefStep.writeAll rest)
  | .at e :: rest => '[' :: (e.write ++ ']' :: RefStep.writeAll rest)

end

/-- An entry of an object. -/
def writeEntry (entry : String × Expr) : List Char :=
  quotedText entry.1 ++ ':' :: ' ' :: entry.2.write

def Part.write : Part → List Char
  | .text s => plainText s
  | .span e => '$' :: '\x7b' :: (e.write ++ ['\x7d'])

def RefStep.write : RefStep → List Char
  | .key k => '.' :: k.toList
  | .at e => '[' :: (e.write ++ [']'])

/-- A template as a text. -/
def Template.write (t : Template) : String :=
  String.ofList (Part.writeAll t)

/-! ## What can be written -/

section

open Grammar

def IsKeyWord (s : String) : Prop :=
  s.toList ≠ [] ∧ ∀ c ∈ s.toList, isWordChar c = true

def IsIdentifier (s : String) : Prop :=
  IsKeyWord s ∧ ∀ c ∈ s.toList.head?, isWordStart c = true

/-- A word that is no literal. -/
def IsFirstWord (s : String) : Prop :=
  IsIdentifier s ∧ s ∉ ["true", "false", "null"]

/-- Words with dots between them. -/
def IsCallName (s : String) : Prop :=
  ∃ first rest, s = ".".intercalate (first :: rest) ∧ IsFirstWord first ∧ ∀ w ∈ rest, IsIdentifier w

/-- A literal that is no array or object, and if it is a number a whole one without a sign. -/
def Value.WellFormed : Value → Prop
  | .num (.int i) => 0 ≤ i ∧ i < 2 ^ 64
  | .num (.float _) => False
  | .arr _ => False
  | .obj _ => False
  | _ => True

def Part.isText : Part → Bool
  | .text _ => true
  | .span _ => false

/-- Not both parts are texts. -/
def Part.Apart (p q : Part) : Prop :=
  (p.isText && q.isText) = false

mutual

inductive Expr.WellFormed : Expr → Prop where
  | lit {v : Value} (value : v.WellFormed) : Expr.WellFormed (.lit v)
  | template {parts : List Part} (each : ∀ p ∈ parts, Part.WellFormed p)
    (apart : parts.IsChain Part.Apart) : Expr.WellFormed (.template parts)
  | array {items : List Expr} (each : ∀ e ∈ items, Expr.WellFormed e) : Expr.WellFormed (.array items)
  | object {entries : List (String × Expr)} (each : ∀ entry ∈ entries, Expr.WellFormed entry.2) :
    Expr.WellFormed (.object entries)
  -- A reference starts with a name, which a literal word cannot be unless the reference climbs.
  | ref {parents : Nat} {first : String} {rest : List RefStep} (word : IsKeyWord first)
    (opens : parents = 0 → IsFirstWord first) (each : ∀ step ∈ rest, RefStep.WellFormed step) :
    Expr.WellFormed (.ref parents (.key first :: rest))
  | fresh {parents : Nat} {steps : List RefStep} (target : Expr.WellFormed (.ref parents steps)) :
    Expr.WellFormed (.fresh parents steps)
  -- A call of `fresh` with a reference alone would be read as `Expr.fresh`.
  | call {name : String} {args : List Expr} (dotted : IsCallName name)
    (each : ∀ e ∈ args, Expr.WellFormed e)
    (notFresh : name = "fresh" → ∀ parents steps, args ≠ [.ref parents steps]) :
    Expr.WellFormed (.call name args)
  | unary {op : UnaryOp} {e : Expr} (operand : Expr.WellFormed e) : Expr.WellFormed (.unary op e)
  | binary {op : BinaryOp} {l r : Expr} (left : Expr.WellFormed l) (right : Expr.WellFormed r) :
    Expr.WellFormed (.binary op l r)
  | logical {op : LogicalOp} {l r : Expr} (left : Expr.WellFormed l) (right : Expr.WellFormed r) :
    Expr.WellFormed (.logical op l r)
  | conditional {c y n : Expr} (condition : Expr.WellFormed c) (yes : Expr.WellFormed y)
    (no : Expr.WellFormed n) : Expr.WellFormed (.conditional c y n)
  | member {o : Expr} {k : String} (object : Expr.WellFormed o) (key : IsKeyWord k) :
    Expr.WellFormed (.member o k)
  | index {o i : Expr} (object : Expr.WellFormed o) (place : Expr.WellFormed i) :
    Expr.WellFormed (.index o i)

inductive Part.WellFormed : Part → Prop where
  | text {s : String} (visible : s ≠ "") : Part.WellFormed (.text s)
  | span {e : Expr} (expression : Expr.WellFormed e) : Part.WellFormed (.span e)

inductive RefStep.WellFormed : RefStep → Prop where
  | key {k : String} (word : IsKeyWord k) : RefStep.WellFormed (.key k)
  | at {e : Expr} (index : Expr.WellFormed e) : RefStep.WellFormed (.at e)

end

/-- No text of the template is empty or beside another, and its expressions obey the rules for names
and literals. -/
structure Template.WellFormed (t : Template) : Prop where
  each : ∀ p ∈ t, p.WellFormed
  apart : t.IsChain Part.Apart

end

/-! ## Lists -/

theorem Expr.writeEach_eq (es : List Expr) : Expr.writeEach es = es.map Expr.write := by
  induction es with
  | nil => rfl
  | cons e es ih => rw [Expr.writeEach, ih, List.map_cons]

theorem Expr.writeEntries_eq (entries : List (String × Expr)) :
    Expr.writeEntries entries = entries.map writeEntry := by
  induction entries with
  | nil => rfl
  | cons entry entries ih =>
    obtain ⟨k, e⟩ := entry
    rw [Expr.writeEntries, ih, List.map_cons]
    rfl

theorem Part.writeAll_cons (p : Part) (t : List Part) :
    Part.writeAll (p :: t) = p.write ++ Part.writeAll t := by
  cases p with
  | text s => rw [Part.writeAll, Part.write]
  | span e => simp [Part.writeAll, Part.write]

theorem RefStep.writeAll_eq (steps : List RefStep) :
    RefStep.writeAll steps = steps.flatMap RefStep.write := by
  induction steps with
  | nil => rfl
  | cons step steps ih =>
    cases step with
    | key k => simp [RefStep.writeAll, RefStep.write, ih]
    | «at» e => simp [RefStep.writeAll, RefStep.write, ih]

/-! ## Lengths -/

theorem length_inParens (text : List Char) : (inParens text).length = text.length + 2 := by
  simp [inParens]

theorem length_le_listed {t : List Char} {ts : List (List Char)} (h : t ∈ ts) :
    t.length ≤ (listed ts).length := by
  obtain ⟨before, after, rfl⟩ := List.append_of_mem h
  cases before with
  | nil => simp [listed]
  | cons t' before =>
    simp [listed]
    omega

theorem length_lt_writeAll_parts {e : Expr} {t : List Part} (h : .span e ∈ t) :
    e.write.length < (Part.writeAll t).length := by
  obtain ⟨before, after, rfl⟩ := List.append_of_mem h
  induction before with
  | nil => simp [Part.writeAll]; omega
  | cons p before ih =>
    have hshort := ih (List.mem_append_right before List.mem_cons_self)
    rw [List.cons_append, Part.writeAll_cons, List.length_append]
    omega

theorem length_lt_writeAll_steps {e : Expr} {steps : List RefStep} (h : .at e ∈ steps) :
    e.write.length < (RefStep.writeAll steps).length := by
  obtain ⟨before, after, rfl⟩ := List.append_of_mem h
  rw [RefStep.writeAll_eq, List.flatMap_append, List.flatMap_cons, RefStep.write]
  simp
  omega

end LiveDoc
