import LiveDoc.Text.CaseTable
import LiveDoc.Text.Letter

/-! # Upper and lower case

Full case mapping of texts. A character may map to several, and a capital sigma that ends a word
has a small form of its own.
-/

namespace LiveDoc.Text

/-- The image of `n` under a run that holds it. -/
def CaseRun.image? (r : CaseRun) (n : Nat) : Option Nat :=
  if r.first ≤ n && n ≤ r.last && (n - r.first) % r.step == 0 then
    some (n + r.offset).toNat
  else
    none

/-- Map one character by a table of expansions and a table of runs. -/
def mapCase (expansions : List (Nat × List Nat)) (runs : List CaseRun) (c : Char) : List Char :=
  match expansions.lookup c.toNat with
  | some image => image.map Char.ofNat
  | none => [(runs.findSome? (·.image? c.toNat)).elim c Char.ofNat]

/-- The upper case of one character. -/
def upperChar (c : Char) : List Char :=
  if c.toNat < 0x80 then [c.toUpper] else mapCase upperExpansions upperRuns c

/-- The lower case of one character that is not tied to its neighbours. -/
def lowerChar (c : Char) : List Char :=
  if c.toNat < 0x80 then [c.toLower] else mapCase lowerExpansions lowerRuns c

def isCased (c : Char) : Bool :=
  inRanges casedRanges c.toNat

def isCaseIgnorable (c : Char) : Bool :=
  inRanges caseIgnorableRanges c.toNat

/-- Whether the first character that counts for case is a cased one. -/
def startsCased (cs : List Char) : Bool :=
  ((cs.dropWhile isCaseIgnorable).head?).any isCased

/-- Lower case of the characters that follow `before`, which is kept in reverse. A capital sigma
with a cased character before it and none after it is the last letter of a word. -/
def lowerAfter (before : List Char) : List Char → List Char
  | [] => []
  | c :: rest =>
    let image :=
      if c == 'Σ' then
        if startsCased before && !startsCased rest then ['ς'] else ['σ']
      else
        lowerChar c
    image ++ lowerAfter (c :: before) rest

def upper (s : String) : String :=
  String.ofList (s.toList.flatMap upperChar)

def lower (s : String) : String :=
  String.ofList (lowerAfter [] s.toList)

/-- Upper case of the first character; the rest stays. -/
def capitalize (s : String) : String :=
  match s.toList with
  | [] => ""
  | c :: rest => String.ofList (upperChar c ++ rest)

/-- Lower case of the letters A to Z alone. -/
def lowerAscii (s : String) : String :=
  String.ofList (s.toList.map Char.toLower)

/-- Upper case of the letters a to z alone. -/
def upperAscii (s : String) : String :=
  String.ofList (s.toList.map Char.toUpper)

end LiveDoc.Text
