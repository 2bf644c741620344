import LiveDoc.Cli.Commands

/-! # The program -/

open LiveDoc

/-- The file that a command will ask for, if the arguments name one. -/
def wantedFile? (args : List String) : Option String :=
  match Cli.parse args with
  | .run c => some c.file
  | _ => none

def readText? (file : String) : IO (Option String) := do
  try
    return some (← IO.FS.readFile file)
  catch _ =>
    return none

def main (args : List String) : IO UInt32 := do
  let content ← match wantedFile? args with
    | some file => readText? file
    | none => pure none
  let answer := Cli.run (fun _ => content) args
  (← IO.getStdout).putStr answer.out
  (← IO.getStderr).putStr answer.err
  return UInt32.ofNat answer.exit
