import LiveDoc.Text.Case
import LiveDoc.Text.Split

/-! # Language tags

A tag is a language of two or three letters, then an optional script of four letters and an optional
region of two letters or three digits. Its canonical form is lower, title and upper case.
-/

namespace LiveDoc

structure LanguageTag where
  language : String
  script : Option String
  region : Option String
  deriving DecidableEq, Repr

namespace LanguageTag

def isLanguage (s : String) : Bool :=
  (s.length == 2 || s.length == 3) && s.toList.all Char.isAlpha

def isScript (s : String) : Bool :=
  s.length == 4 && s.toList.all Char.isAlpha

def isRegion (s : String) : Bool :=
  (s.length == 2 && s.toList.all Char.isAlpha) || (s.length == 3 && s.toList.all Char.isDigit)

/-- First letter upper case, the others lower case, for the letters A to Z. -/
def title (s : String) : String :=
  match s.toList with
  | [] => ""
  | c :: rest => String.ofList (c.toUpper :: rest.map Char.toLower)

/-- The parts after the language. -/
def ofTail? (language : String) : List String → Option LanguageTag
  | [] => some ⟨language, none, none⟩
  | [s] =>
    if isScript s then some ⟨language, some (title s), none⟩
    else if isRegion s then some ⟨language, none, some (Text.upperAscii s)⟩
    else none
  | [s, r] =>
    if isScript s && isRegion r then
      some ⟨language, some (title s), some (Text.upperAscii r)⟩
    else none
  | _ => none

def parse? (tag : String) : Option LanguageTag :=
  match Text.split '-' tag with
  | [] => none
  | language :: tail =>
    if isLanguage language then ofTail? (Text.lowerAscii language) tail else none

def text (t : LanguageTag) : String :=
  "-".intercalate (t.language :: t.script.toList ++ t.region.toList)

end LanguageTag

/-- The canonical form of a language tag, if the text is one. -/
def canonicalLanguage? (tag : String) : Option String :=
  (LanguageTag.parse? tag).map LanguageTag.text

end LiveDoc
