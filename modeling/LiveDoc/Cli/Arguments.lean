import LiveDoc.Text.Split

/-! # Command line arguments

Arguments are read from left to right and the first that is wrong, or asks for help or the version,
decides. Options may stand before and after the positional arguments of their command.
-/

namespace LiveDoc.Cli

inductive Verb where
  | get
  | check
  | variants
  deriving DecidableEq, Repr

namespace Verb

def ofName? (name : String) : Option Verb :=
  if name = "get" then some .get
  else if name = "check" then some .check
  else if name = "variants" then some .variants
  else none

/-- The greatest number of positional arguments. -/
def places : Verb → Nat
  | .get => 2
  | _ => 1

end Verb

/-- The options, by what they do. -/
inductive Flag where
  | color
  | verbose
  | context
  | fresh
  | json
  | help
  | version
  deriving DecidableEq, Repr

namespace Flag

def ofLong? (name : String) : Option Flag :=
  if name = "color" then some .color
  else if name = "verbose" then some .verbose
  else if name = "ctx" then some .context
  else if name = "fresh" then some .fresh
  else if name = "json" then some .json
  else if name = "help" then some .help
  else if name = "version" then some .version
  else none

def ofShort? : Char → Option Flag
  | 'v' => some .verbose
  | 'c' => some .context
  | 'h' => some .help
  | 'V' => some .version
  | _ => none

def takesValue : Flag → Bool
  | .color | .context => true
  | _ => false

/-- Whether an option may be given in front of the command, or behind it. -/
def allowed (f : Flag) : Option Verb → Bool
  | none => f ∈ [Flag.color, .verbose, .help, .version]
  | some .get => f ∈ [Flag.color, .verbose, .context, .fresh, .json, .help]
  | some _ => f ∈ [Flag.color, .verbose, .context, .json, .help]

end Flag

/-- A command with what was given for it. -/
structure Command where
  verb : Verb
  file : String
  path : String
  context : List (String × String)
  fresh : Bool
  json : Bool
  deriving DecidableEq, Repr

/-- What the arguments ask for. -/
inductive Usage where
  | run (command : Command)
  | help (verb : Option Verb)
  | version
  | wrong
  deriving DecidableEq, Repr

/-- What has been read so far: the single options seen, the entries and the positional arguments. -/
structure Seen where
  flags : List Flag
  context : List (String × String)
  places : List String
  deriving Repr

namespace Seen

def none : Seen :=
  ⟨[], [], []⟩

/-- Note a single option; a second time is wrong. -/
def addFlag? (s : Seen) (f : Flag) : Option Seen :=
  if f ∈ s.flags then Option.none else some { s with flags := f :: s.flags }

/-- Note an option with its value. -/
def addValue? (s : Seen) (f : Flag) (value : String) : Option Seen :=
  match f with
  | .context => (Text.cut? '=' value).map fun entry => { s with context := s.context ++ [entry] }
  | _ => if value ∈ ["auto", "always", "never"] then s.addFlag? f else Option.none

/-- Note a positional argument. The first one is a file, which has a name. -/
def addPlace? (s : Seen) (verb : Verb) (value : String) : Option Seen :=
  if verb.places ≤ s.places.length then Option.none
  else if s.places.isEmpty && value = "" then Option.none
  else some { s with places := s.places ++ [value] }

/-- The command that was given; the file has to be there. -/
def command (s : Seen) (verb : Verb) : Usage :=
  match s.places with
  | [] => .wrong
  | file :: rest =>
    .run ⟨verb, file, rest.headD "", s.context, s.flags.contains .fresh, s.flags.contains .json⟩

end Seen

/-- How an argument reads: an option word, a cluster of option letters, the end of options, or a
plain value. -/
inductive Shape where
  | long (name : String) (value : Option String)
  | short (letters : List Char)
  | stop
  | plain
  deriving Repr

def shapeOf (arg : String) : Shape :=
  match arg.toList with
  | '-' :: '-' :: [] => .stop
  | '-' :: '-' :: rest =>
    let word := String.ofList rest
    match Text.cut? '=' word with
    | some (name, value) => .long name (some value)
    | none => .long word none
  | '-' :: c :: rest => .short (c :: rest)
  | _ => .plain

/-- What an option leads to: more arguments with what is known then, a value that has to follow, or
an answer at once. -/
inductive Effect where
  | known (s : Seen)
  | awaits (f : Flag) (s : Seen)
  | answer (u : Usage)

def Effect.ofSeen? : Option Seen → Effect
  | some s => .known s
  | none => .answer .wrong

/-- An option word with the value attached to it, if any. -/
def longEffect (verb : Option Verb) (s : Seen) (name : String) (value : Option String) : Effect :=
  match (Flag.ofLong? name).filter (·.allowed verb) with
  | none => .answer .wrong
  | some f =>
    match f.takesValue, value with
    | true, some v => .ofSeen? (s.addValue? f v)
    | true, none => .awaits f s
    | false, some _ => .answer .wrong
    | false, none =>
      match f with
      | .help => .answer (.help verb)
      | .version => .answer .version
      | _ => .ofSeen? (s.addFlag? f)

/-- A cluster of option letters; behind a letter that takes a value the rest is the value. -/
def shortEffect (verb : Option Verb) (s : Seen) : List Char → Effect
  | [] => .known s
  | c :: rest =>
    match (Flag.ofShort? c).filter (·.allowed verb) with
    | none => .answer .wrong
    | some f =>
      if f.takesValue then
        match rest with
        | [] => .awaits f s
        | '=' :: value => .ofSeen? (s.addValue? f (String.ofList value))
        | value => .ofSeen? (s.addValue? f (String.ofList value))
      else
        match f with
        | .help => .answer (.help verb)
        | .version => .answer .version
        | _ =>
          match s.addFlag? f with
          | some s => shortEffect verb s rest
          | none => .answer .wrong

/-- The positional arguments behind the end of options. -/
def readPlaces (verb : Verb) (s : Seen) : List String → Usage
  | [] => s.command verb
  | arg :: rest =>
    match s.addPlace? verb arg with
    | some s => readPlaces verb s rest
    | none => .wrong

/-- The arguments behind the command; `awaiting` is an option whose value comes next. -/
def readCommand (verb : Verb) (s : Seen) (awaiting : Option Flag) : List String → Usage
  | [] => if awaiting.isSome then .wrong else s.command verb
  | arg :: rest =>
    match awaiting with
    | some f =>
      match shapeOf arg, s.addValue? f arg with
      | .plain, some s => readCommand verb s none rest
      | _, _ => .wrong
    | none =>
      let effect : Effect :=
        match shapeOf arg with
        | .long name value => longEffect (some verb) s name value
        | .short letters => shortEffect (some verb) s letters
        | .plain => .ofSeen? (s.addPlace? verb arg)
        | .stop => .answer (readPlaces verb s rest)
      match effect with
      | .answer u => u
      | .known s => readCommand verb s none rest
      | .awaits f s => readCommand verb s (some f) rest

/-- Help on a command, which has to be one. -/
def readHelp : List String → Usage
  | [] => .help none
  | [name] => if name = "help" then .help none else
    match Verb.ofName? name with
    | some verb => .help (some verb)
    | none => .wrong
  | _ => .wrong

/-- The arguments in front of the command. -/
def readFront (s : Seen) (awaiting : Option Flag) : List String → Usage
  | [] => .wrong
  | arg :: rest =>
    match awaiting with
    | some f =>
      match shapeOf arg, s.addValue? f arg with
      | .plain, some s => readFront s none rest
      | _, _ => .wrong
    | none =>
      let effect : Effect :=
        match shapeOf arg with
        | .long name value => longEffect none s name value
        | .short letters => shortEffect none s letters
        | .plain =>
          .answer <|
            if arg = "help" then readHelp rest
            else
              match Verb.ofName? arg with
              | some verb => readCommand verb .none none rest
              | none => .wrong
        | .stop => .answer .wrong
      match effect with
      | .answer u => u
      | .known s => readFront s none rest
      | .awaits f s => readFront s (some f) rest

/-- What a list of arguments asks for. -/
def parse (args : List String) : Usage :=
  readFront .none none args

end LiveDoc.Cli
