import LiveDoc.Number.Numeral
import LiveDoc.Value.Basic

/-! # Reading JSON

A strict reader. Each step takes a part off the front of the text and gives the rest, or nothing if
the text is not well formed. Containers may lie inside one another up to a limit.
-/

namespace LiveDoc.Json

def isSpace (c : Char) : Bool :=
  c == ' ' || c == '\t' || c == '\n' || c == '\r'

def skipSpace (cs : List Char) : List Char :=
  cs.dropWhile isSpace

def stripPrefix? : List Char → List Char → Option (List Char)
  | [], cs => some cs
  | p :: ps, c :: cs => if p = c then stripPrefix? ps cs else none
  | _ :: _, [] => none

def hexValue? (c : Char) : Option Nat :=
  let n := c.toNat
  if 0x30 ≤ n ∧ n ≤ 0x39 then some (n - 0x30)
  else if 0x41 ≤ n ∧ n ≤ 0x46 then some (n - 0x37)
  else if 0x61 ≤ n ∧ n ≤ 0x66 then some (n - 0x57)
  else none

/-- Four hexadecimal digits. -/
def unit16 : List Char → Option (Nat × List Char)
  | a :: b :: c :: d :: rest => do
    let a ← hexValue? a
    let b ← hexValue? b
    let c ← hexValue? c
    let d ← hexValue? d
    some (((a * 16 + b) * 16 + c) * 16 + d, rest)
  | _ => none

/-- The character of an escape with a code, after the letter `u`. A leading surrogate needs the
escape of a trailing one behind it, and a trailing one never stands first. -/
def codeEscape (cs : List Char) : Option (Char × List Char) := do
  let (high, rest) ← unit16 cs
  if 0xDC00 ≤ high ∧ high < 0xE000 then none
  else if 0xD800 ≤ high ∧ high < 0xDC00 then
    let (low, rest) ← unit16 (← stripPrefix? ['\x5c', 'u'] rest)
    if 0xDC00 ≤ low ∧ low < 0xE000 then
      some (Char.ofNat (0x10000 + (high - 0xD800) * 0x400 + (low - 0xDC00)), rest)
    else none
  else some (Char.ofNat high, rest)

/-- The character of an escape, after the backslash. -/
def escaped : List Char → Option (Char × List Char)
  | 'b' :: rest => some ('\x08', rest)
  | 't' :: rest => some ('\t', rest)
  | 'n' :: rest => some ('\n', rest)
  | 'f' :: rest => some ('\x0c', rest)
  | 'r' :: rest => some ('\r', rest)
  | 'u' :: rest => codeEscape rest
  | c :: rest => if c == '\x22' || c == '\x5c' || c == '/' then some (c, rest) else none
  | [] => none

/-- The characters of a text up to its closing quote; `steps` bounds their number. -/
def characters : Nat → List Char → Option (List Char × List Char)
  | 0, _ => none
  | _, [] => none
  | steps + 1, c :: rest =>
    if c == '\x22' then some ([], rest)
    else if c.toNat < 0x20 then none
    else do
      let (d, rest) ← if c == '\x5c' then escaped rest else some (c, rest)
      let (ds, rest) ← characters steps rest
      some (d :: ds, rest)

/-- A text, after its opening quote. -/
def text (cs : List Char) : Option (String × List Char) :=
  (characters (cs.length + 1) cs).map fun (ds, rest) => (String.ofList ds, rest)

/-- A whole part: zero alone, or digits that do not start with zero. -/
def wholePart (cs : List Char) : Option (List Char × List Char) :=
  match Numeral.takeDigits cs with
  | ([], _) => none
  | ('0' :: _ :: _, _) => none
  | (digits, rest) => some (digits, rest)

/-- A fraction or nothing. -/
def fractionPart : List Char → Option (List Char × List Char)
  | '.' :: rest =>
    match Numeral.takeDigits rest with
    | ([], _) => none
    | (digits, rest) => some (digits, rest)
  | cs => some ([], cs)

/-- An exponent or nothing. -/
def exponentPart : List Char → Option (Option Int × List Char)
  | [] => some (none, [])
  | c :: rest =>
    if c == 'e' || c == 'E' then
      let (negative, cs) := Numeral.signed rest
      match Numeral.takeDigits cs with
      | ([], _) => none
      | (digits, rest) =>
        let n : Int := Numeral.ofDigits digits
        some (some (if negative then -n else n), rest)
    else some (none, c :: rest)

/-- The number of a numeral: whole if it is written so and fits in 64 bits, otherwise a double,
which has to be finite. A negative zero is a double. -/
def numberOf (negative : Bool) (whole fraction : List Char) (exponent : Option Int) :
    Option Number :=
  let n := Numeral.ofDigits whole
  let asFloat :=
    let f := Numeral.nearest (Numeral.ofDigits (whole ++ fraction))
      (exponent.getD 0 - fraction.length)
    if f.isFinite then some (Number.float (if negative then -f else f)) else none
  if fraction.isEmpty && exponent.isNone then
    if !negative && Numeral.fitsUnsigned n then some (.int n)
    else if negative && 0 < n && Numeral.fitsSigned (-n) then some (.int (-n))
    else asFloat
  else asFloat

def number (cs : List Char) : Option (Number × List Char) := do
  let (negative, cs) := match cs with
    | '-' :: rest => (true, rest)
    | _ => (false, cs)
  let (whole, cs) ← wholePart cs
  let (fraction, cs) ← fractionPart cs
  let (exponent, cs) ← exponentPart cs
  let n ← numberOf negative whole fraction exponent
  some (n, cs)

/-- Items with commas between them, up to the closing character; `steps` bounds their number. -/
def items {α : Type} (item : List Char → Option (α × List Char)) (closing : Char) :
    Nat → List Char → Option (List α × List Char)
  | 0, _ => none
  | steps + 1, cs => do
    let (a, cs) ← item cs
    match skipSpace cs with
    | [] => none
    | c :: rest =>
      if c = closing then some ([a], rest)
      else if c = ',' then
        let (as, rest) ← items item closing steps rest
        some (a :: as, rest)
      else none

/-- The inside of a container, after its opening character. -/
def container {α : Type} (item : List Char → Option (α × List Char)) (closing : Char)
    (cs : List Char) : Option (List α × List Char) :=
  match skipSpace cs with
  | [] => none
  | c :: rest => if c = closing then some ([], rest) else items item closing (cs.length + 1) cs

/-- A member of an object. -/
def member (value : List Char → Option (Value × List Char)) (cs : List Char) :
    Option ((String × Value) × List Char) := do
  let rest ← stripPrefix? ['\x22'] (skipSpace cs)
  let (key, rest) ← text rest
  let rest ← stripPrefix? [':'] (skipSpace rest)
  let (v, rest) ← value rest
  some ((key, v), rest)

/-- A value after blanks, with at most `limit` containers inside one another. -/
def value : Nat → List Char → Option (Value × List Char)
  | limit, cs =>
    match skipSpace cs with
    | [] => none
    | c :: rest =>
      if c == '\x22' then (text rest).map fun (s, rest) => (.str s, rest)
      else if c == '[' then
        match limit with
        | 0 => none
        | inner + 1 => (container (value inner) ']' rest).map fun (vs, rest) => (.arr vs, rest)
      else if c == '\x7b' then
        match limit with
        | 0 => none
        | inner + 1 =>
          (container (member (value inner)) '\x7d' rest).map fun (ms, rest) =>
            (.obj (Assoc.ofList ms), rest)
      else if c == 'n' then (stripPrefix? "ull".toList rest).map fun rest => (.null, rest)
      else if c == 't' then (stripPrefix? "rue".toList rest).map fun rest => (.bool true, rest)
      else if c == 'f' then (stripPrefix? "alse".toList rest).map fun rest => (.bool false, rest)
      else (number (c :: rest)).map fun (n, rest) => (.num n, rest)

/-- The value that a whole text writes. -/
def read? (limit : Nat) (s : String) : Option Value :=
  match value limit s.toList with
  | some (v, rest) => if (skipSpace rest).isEmpty then some v else none
  | none => none

/-- Documents nest at most 127 containers. -/
def nestingLimit : Nat :=
  127

end LiveDoc.Json
