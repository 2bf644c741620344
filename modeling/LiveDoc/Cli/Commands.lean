import LiveDoc.Cli.Grid
import LiveDoc.Cli.Help
import LiveDoc.Tree

/-! # Commands

Evaluate a path, check every expression, list variant groups. A command answers with an exit code
and what it prints; files are read through a function, so that a command is a function of its
arguments.
-/

namespace LiveDoc.Cli

/-- What a run prints and the code it exits with. -/
structure Answer where
  exit : Nat
  out : String
  err : String
  deriving DecidableEq, Repr

namespace Answer

def success : Nat := 0

def usageError : Nat := 2

/-- The document or an expression in it is at fault. -/
def dataError : Nat := 65

/-- There is no document to work on. -/
def noDocument : Nat := 70

end Answer

/-! ## Colours -/

def coloured (code : String) (text : String) : String :=
  "\x1b[" ++ code ++ "m" ++ text ++ "\x1b[39m"

def red : String → String := coloured "31"
def green : String → String := coloured "32"
def yellow : String → String := coloured "33"

/-! ## Commands -/

/-- The tree of a command: the documents that it reads have no host. -/
abbrev Sheet := Tree Unit

def contextOf (entries : List (String × String)) : Context :=
  .ofList entries

/-- A read of a path under the context of the command. -/
def evaluate (t : Sheet) (c : Command) (path : String) : Sheet × Option ReadResult :=
  t.get .root path ⟨c.fresh, none, some (contextOf c.context)⟩

def failureText (e : EvalError) : Value :=
  .obj [("error", .str e.message), ("kind", .str e.kind.text)]

/-- Print the value at a path. -/
def runGet (t : Sheet) (c : Command) : Answer :=
  match (evaluate t c c.path).2 with
  | some (.ok (some v)) =>
    ⟨Answer.success, (if c.json then v.spread else v.render) ++ "\n", ""⟩
  | some (.error e) =>
    ⟨Answer.dataError, "",
      (if c.json then (failureText e).spread else red "error:" ++ " " ++ e.message) ++ "\n"⟩
  | _ =>
    if c.json then ⟨Answer.dataError, "null\n", ""⟩
    else ⟨Answer.dataError, "", yellow "warning:" ++ " nothing at '" ++ c.path ++ "'\n"⟩

/-- An expression that failed. -/
structure Failure where
  path : String
  error : EvalError

namespace Failure

def value (f : Failure) : Value :=
  .obj [("path", .str f.path), ("kind", .str f.error.kind.text), ("message", .str f.error.message)]

def row (f : Failure) : List Cell :=
  [cellOf f.path, cellOf f.error.kind.text, cellOf f.error.message]

end Failure

/-- Evaluate expressions in turn on one tree, and list those that fail. -/
def failuresOf (c : Command) : List Path → Sheet → List Failure
  | [], _ => []
  | p :: rest, t =>
    let (t, result) := evaluate t c p.text
    let failures := failuresOf c rest t
    match result with
    | some (.error e) => ⟨p.text, e⟩ :: failures
    | _ => failures

/-- Evaluate every expression and report those that fail. -/
def runCheck (t : Sheet) (c : Command) : Answer :=
  let paths := t.expressions
  let failures := failuresOf c paths t
  let count := toString paths.length
  let exit := if failures.isEmpty then Answer.success else Answer.dataError
  let out :=
    if c.json then
      (Value.obj [
        ("evaluated", .num (.int paths.length)),
        ("failures", .arr (failures.map Failure.value))]).spread
    else if failures.isEmpty then
      green "ok:" ++ " " ++ count ++ " expressions evaluated in " ++ c.file
    else
      Grid.render (["Path", "Kind", "Error"].map cellOf) (failures.map Failure.row) ++ "\n\n" ++
        red "error:" ++ " " ++ toString failures.length ++ " of " ++ count ++ " expressions failed"
  ⟨exit, out ++ "\n", ""⟩

def groupValue (g : VariantGroup) : Value :=
  let candidate (c : Candidate) : Value :=
    .obj [("key", .str c.key), ("score", .num (.int c.score)), ("extras", .num (.int c.extras))]
  .obj [
    ("path", .str g.path.text),
    ("winner", (g.winner.map Value.str).getD .null),
    ("candidates", .arr (g.candidates.map candidate))]

def groupRow (g : VariantGroup) : List Cell :=
  let candidates := g.candidates.map fun c => c.key ++ " (" ++ toString c.score ++ ")"
  [cellOf g.path.text, cellOf ("\n".intercalate candidates), cellOf (g.winner.getD "-")]

/-- List the variant groups and the key that each comes to. -/
def runVariants (t : Sheet) (c : Command) : Answer :=
  let groups := t.groups (contextOf c.context)
  let out :=
    if c.json then (Value.arr (groups.map groupValue)).spread
    else if groups.isEmpty then "No variant keys in " ++ c.file
    else Grid.render (["Slot", "Candidates", "Resolves To"].map cellOf) (groups.map groupRow)
  ⟨Answer.success, out ++ "\n", ""⟩

/-- Run a command on a document. -/
def runVerb (t : Sheet) (c : Command) : Answer :=
  match c.verb with
  | .get => runGet t c
  | .check => runCheck t c
  | .variants => runVariants t c

/-- Run a command on the document that its file holds. -/
def runCommand (document : String → Option String) (c : Command) : Answer :=
  let refused (message : String) : Answer := ⟨Answer.noDocument, "", message ++ "\n"⟩
  match document c.file with
  | none => refused ("Cannot read document " ++ c.file)
  | some text =>
    match Tree.ofText text .default () with
    | .error e => refused ("Invalid document " ++ c.file ++ ": " ++ e.message)
    | .ok t => runVerb t c

/-- A whole run of the program, which finds the text of a file by a function. -/
def run (document : String → Option String) (args : List String) : Answer :=
  match parse args with
  | .run c => runCommand document c
  | .help verb => ⟨Answer.success, helpText verb, ""⟩
  | .version => ⟨Answer.success, "lzs 0.1.0\n", ""⟩
  | .wrong => ⟨Answer.usageError, "", HelpPage.program.text⟩

end LiveDoc.Cli
