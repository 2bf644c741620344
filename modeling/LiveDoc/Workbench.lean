import LiveDoc.Evaluation.World
import LiveDoc.Json.Writer

/-! # A workbench

Resolvers to try documents with: a counter, a log, gates that keep reads waiting, and a few plain
functions. A policy decides about failures by place and kind.
-/

namespace LiveDoc

structure Workbench where
  counter : Nat
  log : List Value
  /-- The gates that are open. -/
  gates : List String

namespace Workbench

def empty : Workbench :=
  ⟨0, [], []⟩

/-- Open a gate; it stays open. -/
def openGate (w : Workbench) (gate : String) : Workbench :=
  { w with gates := w.gates.insert gate }

/-- A resolver that answers at once from its arguments. -/
def plain {σ : Type} (f : List Value → Except String Value) : Resolver σ :=
  ⟨fun args _ host => (some (f args), host)⟩

/-- Counts its calls. -/
def count : Resolver Workbench :=
  ⟨fun _ _ w =>
    let n := w.counter + 1
    (some (.ok (.num (.int n))), { w with counter := n })⟩

/-- Notes its first argument and gives it back. -/
def note : Resolver Workbench :=
  ⟨fun args _ w =>
    let v := args.headD .null
    (some (.ok v), { w with log := w.log ++ [v] })⟩

/-- Answers after as many polls as its first argument says. -/
def slow : Resolver Workbench :=
  ⟨fun args asked w =>
    let polls :=
      match args with
      | .num (.int i) :: _ => if 0 ≤ i then i.toNat else 1
      | _ => 1
    if asked < polls then (none, w) else (some (.ok ((args[1]?).getD .null)), w)⟩

/-- Answers once the gate that its argument names is open. -/
def gate : Resolver Workbench :=
  ⟨fun args _ w =>
    let name := (args.head?.map Value.render).getD ""
    if w.gates.contains name then (some (.ok (.str name)), w) else (none, w)⟩

def fail (args : List Value) : Except String Value :=
  .error ((args.head?.map Value.render).getD "failed")

/-- Joins texts with a separator. -/
def join : List Value → Except String Value
  | .str sep :: rest => .ok (.str (sep.intercalate (rest.map Value.render)))
  | _ => .error "expected a separator"

/-- Puts texts between angle brackets. -/
def wrap (args : List Value) : Except String Value :=
  .ok (.str ("<" ++ "|".intercalate (args.map Value.render) ++ ">"))

def registry : Registry Workbench :=
  .ofList [
    ("count", count),
    ("log", note),
    ("echo", plain fun args => .ok (.arr args)),
    ("fail", plain fail),
    ("upper", plain fun _ => .ok (.str "shadowed")),
    ("text.join", plain join),
    ("text.shape.wrap", plain wrap),
    ("slow", slow),
    ("gate", gate)]

end Workbench

/-- What to do about failures: by the place, else by the kind, else in general. -/
structure Policy where
  general : ErrorAction
  byPath : List (String × ErrorAction)
  byKind : List (String × ErrorAction)

def Policy.decide (p : Policy) (error : EvalError) (path : Path) : ErrorAction :=
  ((p.byPath.lookup path.text).or (p.byKind.lookup error.kind.text)).getD p.general

end LiveDoc
