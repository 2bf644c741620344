import LiveDoc.Number.Layout
import LiveDoc.Value.Basic

/-! # Writing values as JSON

Compact text has no blanks. Spread text puts every item on a line of its own, indented by two
blanks for each container around it.
-/

namespace LiveDoc

namespace Json

def hexDigits (n : Nat) : List Char :=
  let digits := Nat.toDigits 16 n
  List.replicate (4 - digits.length) '0' ++ digits

/-- Only quotes, backslashes and control characters are escaped. -/
def escape (c : Char) : List Char :=
  match c.toNat with
  | 0x22 => ['\x5c', '\x22']
  | 0x5C => ['\x5c', '\x5c']
  | 0x08 => ['\x5c', 'b']
  | 0x09 => ['\x5c', 't']
  | 0x0A => ['\x5c', 'n']
  | 0x0C => ['\x5c', 'f']
  | 0x0D => ['\x5c', 'r']
  | n => if n < 0x20 then ['\x5c', 'u'] ++ hexDigits n else [c]

def quote (s : String) : String :=
  String.ofList (['\x22'] ++ s.toList.flatMap escape ++ ['\x22'])

def join (sep : String) (parts : List String) : String :=
  sep.intercalate parts

end Json

def Number.text : Number → String
  | .int i => toString i
  | .float f => floatText f

namespace Value

mutual

/-- Compact JSON text. -/
def json : Value → String
  | .null => "null"
  | .bool b => if b then "true" else "false"
  | .num n => n.text
  | .str s => Json.quote s
  | .arr items => "[" ++ Json.join "," (jsonItems items) ++ "]"
  | .obj members => "\x7b" ++ Json.join "," (jsonMembers members) ++ "\x7d"

def jsonItems : List Value → List String
  | [] => []
  | v :: rest => json v :: jsonItems rest

def jsonMembers : List (String × Value) → List String
  | [] => []
  | (k, v) :: rest => (Json.quote k ++ ":" ++ json v) :: jsonMembers rest

end

/-- A container spread over lines: `indent` is the line break inside the container around it. -/
def spreadBlock (opening closing indent : String) (parts : List String) : String :=
  if parts.isEmpty then opening ++ closing
  else
    let inner := indent ++ "  "
    opening ++ inner ++ Json.join ("," ++ inner) parts ++ indent ++ closing

mutual

/-- JSON text spread over lines, each starting with `indent`. -/
def spreadFrom (indent : String) : Value → String
  | .arr items => spreadBlock "[" "]" indent (spreadItems (indent ++ "  ") items)
  | .obj members => spreadBlock "\x7b" "\x7d" indent (spreadMembers (indent ++ "  ") members)
  | v => v.json

def spreadItems (indent : String) : List Value → List String
  | [] => []
  | v :: rest => spreadFrom indent v :: spreadItems indent rest

def spreadMembers (indent : String) : List (String × Value) → List String
  | [] => []
  | (k, v) :: rest =>
    (Json.quote k ++ ": " ++ spreadFrom indent v) :: spreadMembers indent rest

end

/-- JSON text spread over lines. -/
def spread (v : Value) : String :=
  spreadFrom "\n" v

/-- The text of a value inside a template: `null` leaves nothing, and texts stand as they are. -/
def render : Value → String
  | .null => ""
  | .str s => s
  | v => v.json

end Value

end LiveDoc
