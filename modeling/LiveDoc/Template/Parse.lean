import LiveDoc.Template.Grammar

/-! # Parsing templates

A text that is no template is refused with the place where reading stopped. Lines count from one;
columns count the bytes since the last line break, from one.
-/

namespace LiveDoc

inductive SyntaxError where
  | unexpected (line column : Nat) (near : String)
  | endOfText (line column : Nat)
  deriving DecidableEq, Repr

namespace SyntaxError

def message : SyntaxError → String
  | .unexpected line column near =>
    "syntax error at " ++ toString line ++ ":" ++ toString column ++
      ": invalid expression near '" ++ near ++ "'"
  | .endOfText line column =>
    "unexpected end of input at " ++ toString line ++ ":" ++ toString column

/-- The line in which a text ends. -/
def lineAfter (cs : List Char) : Nat :=
  cs.count '\n' + 1

/-- The column behind the end of a text. -/
def columnAfter (cs : List Char) : Nat :=
  (cs.reverse.takeWhile (· != '\n')).foldr (·.utf8Size + ·) 1

/-- The error of a text whose reading stopped before `rest`. -/
def stoppedAt (cs rest : List Char) : SyntaxError :=
  let consumed := cs.take (cs.length - rest.length)
  let line := lineAfter consumed
  let column := columnAfter consumed
  if rest.isEmpty then .endOfText line column
  else .unexpected line column (String.ofList (rest.take 12))

end SyntaxError

namespace Template

def scan (cs : List Char) : Outcome Template :=
  Grammar.template (Grammar.expression (cs.length + 1)) none cs

def parse (text : String) : Except SyntaxError Template :=
  let cs := text.toList
  match scan cs with
  | .accept t _ => .ok t
  | .refuse rest | .broken rest => .error (.stoppedAt cs rest)

end Template

end LiveDoc
