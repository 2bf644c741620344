import LiveDoc.Cli.Arguments

/-! # Help pages

What the program is for, how it is called, and what its commands, arguments and options do.
-/

namespace LiveDoc.Cli

/-- A part of a page: a title, and terms with what they mean. -/
structure HelpSection where
  title : String
  entries : List (String × String)

structure HelpPage where
  purpose : String
  usage : String
  sections : List HelpSection

namespace HelpSection

/-- The lines of a section; the meanings stand below one another. -/
def lines (s : HelpSection) : List String :=
  let column := s.entries.foldr (max ·.1.length ·) 0
  (s.title ++ ":") :: s.entries.map fun (term, meaning) =>
    "  " ++ term ++ String.ofList (List.replicate (column - term.length + 2) ' ') ++ meaning

end HelpSection

namespace HelpPage

def lines (p : HelpPage) : List String :=
  [p.purpose, "", "Usage: " ++ p.usage] ++ p.sections.flatMap fun s => "" :: s.lines

def text (p : HelpPage) : String :=
  String.join (p.lines.map (· ++ "\n"))

def context : String × String :=
  ("-c, --ctx <CONTEXT>", "Context entries in dimension=value format (repeatable)")

def color : String × String :=
  ("    --color <COLOR>",
    "Color output control [default: auto] [possible values: auto, always, never]")

def fresh : String × String :=
  ("    --fresh", "Bypass cached results")

def json : String × String :=
  ("    --json", "Output as JSON")

def verbose : String × String :=
  ("-v, --verbose", "Log evaluation and cache activity to stderr")

def help : String × String :=
  ("-h, --help", "Print help")

def version : String × String :=
  ("-V, --version", "Print version")

/-- The page of the whole program. -/
def program : HelpPage where
  purpose := "Lazy expression document tools"
  usage := "lzs [OPTIONS] <COMMAND>"
  sections := [
    ⟨"Commands", [
      ("get", "Evaluate a path of a JSON document"),
      ("check", "Evaluate every expression key and report failures"),
      ("variants", "List variant groups and the key each one resolves to"),
      ("help", "Print this message or the help of the given subcommand(s)")]⟩,
    ⟨"Options", [color, verbose, help, version]⟩]

/-- The page of a command. -/
def ofVerb : Verb → HelpPage
  | .get => {
      purpose := "Evaluate a path of a JSON document"
      usage := "lzs get [OPTIONS] <FILE> [PATH]"
      sections := [
        ⟨"Arguments", [
          ("<FILE>", "JSON document to read"),
          ("[PATH]",
            "Path to evaluate (e.g. user.greet); the whole document if omitted [default: ]")]⟩,
        ⟨"Options", [context, color, fresh, verbose, json, help]⟩] }
  | .check => {
      purpose := "Evaluate every expression key and report failures"
      usage := "lzs check [OPTIONS] <FILE>"
      sections := [
        ⟨"Arguments", [("<FILE>", "JSON document to check")]⟩,
        ⟨"Options", [context, color, json, verbose, help]⟩] }
  | .variants => {
      purpose := "List variant groups and the key each one resolves to"
      usage := "lzs variants [OPTIONS] <FILE>"
      sections := [
        ⟨"Arguments", [("<FILE>", "JSON document to inspect")]⟩,
        ⟨"Options", [context, color, json, verbose, help]⟩] }

end HelpPage

/-- The page that a request for help is answered with. -/
def helpText : Option Verb → String
  | none => HelpPage.program.text
  | some verb => (HelpPage.ofVerb verb).text

end LiveDoc.Cli
