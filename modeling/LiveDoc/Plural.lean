import LiveDoc.Variant.Language

/-! # Plural categories

The cardinal plural rules of the CLDR for whole numbers.
-/

namespace LiveDoc

inductive PluralCategory where
  | zero
  | one
  | two
  | few
  | many
  | other
  deriving DecidableEq, Repr

namespace PluralCategory

def text : PluralCategory → String
  | .zero => "zero"
  | .one => "one"
  | .two => "two"
  | .few => "few"
  | .many => "many"
  | .other => "other"

end PluralCategory

/-- Sets of languages whose rules agree. -/
inductive PluralFamily where
  | always
  | single
  | zeroOrSingle
  | singleOrMillions
  | zeroOrSingleOrMillions
  | eastSlavic
  | southSlavic
  | zeroAndSingle
  | slovene
  | czech
  | hebrew
  | icelandic
  | latvian
  | filipino
  | arabic
  | breton
  | welsh
  | irish
  | scottish
  | lithuanian
  | maltese
  | polish
  | romanian
  deriving DecidableEq, Repr

namespace PluralFamily

/-- The languages of each family; any other language never changes its form. -/
def members : List (PluralFamily × List String) :=
  [(.single, ["af", "az", "bg", "da", "de", "ee", "el", "en", "eo", "et", "eu", "fi", "fo", "fy",
      "ha", "hu", "ia", "ie", "ka", "kk", "ks", "ku", "ky", "lb", "ml", "mn", "mr", "nb", "ne",
      "nl", "nn", "no", "om", "or", "ps", "rm", "sc", "sd", "so", "sq", "st", "sv", "sw", "ta",
      "te", "tk", "tn", "tr", "ug", "ur", "uz", "xh", "ast", "brx", "chr", "ckb", "lij", "syr"]),
   (.zeroOrSingle, ["ak", "am", "as", "bn", "fa", "gu", "hi", "hy", "kn", "pa", "si", "tg", "ti",
      "vi", "zu", "bho", "csw", "doi", "kok", "nso", "pcm"]),
   (.singleOrMillions, ["ca", "es", "gl", "it", "lld", "scn", "vec", "pt-PT"]),
   (.zeroOrSingleOrMillions, ["fr", "pt"]),
   (.eastSlavic, ["be", "ru", "uk"]),
   (.southSlavic, ["bs", "hr", "sr"]),
   (.zeroAndSingle, ["cv", "blo", "ksh"]),
   (.slovene, ["sl", "dsb", "hsb"]),
   (.czech, ["cs", "sk"]),
   (.hebrew, ["he", "sat"]),
   (.icelandic, ["is", "mk"]),
   (.latvian, ["lv", "prg"]),
   (.filipino, ["ceb", "fil"]),
   (.arabic, ["ar"]),
   (.breton, ["br"]),
   (.welsh, ["cy"]),
   (.irish, ["ga"]),
   (.scottish, ["gd"]),
   (.lithuanian, ["lt"]),
   (.maltese, ["mt"]),
   (.polish, ["pl"]),
   (.romanian, ["ro"])]

/-- The family of a language, or of a language with a region. -/
def ofCode (code : String) : PluralFamily :=
  ((members.find? fun m => m.2.contains code).map (·.1)).getD .always

end PluralFamily

/-- Whether `n` lies between two numbers, both included. -/
def between (n low high : Nat) : Bool :=
  low ≤ n && n ≤ high

namespace PluralCategory

/-- The first category whose condition holds. -/
def firstOf : List (PluralCategory × Bool) → PluralCategory
  | [] => .other
  | (category, holds) :: rest => if holds then category else firstOf rest

/-- The conditions of the categories of a family, for a number without its sign. -/
def conditions (family : PluralFamily) (n : Nat) : List (PluralCategory × Bool) :=
  let last := n % 10
  let pair := n % 100
  let millions := n != 0 && n % 1000000 == 0
  let slavicOne := last == 1 && pair != 11
  let slavicFew := between last 2 4 && !between pair 12 14
  match family with
  | .always => []
  | .single => [(.one, n == 1)]
  | .zeroOrSingle => [(.one, n ≤ 1)]
  | .singleOrMillions => [(.one, n == 1), (.many, millions)]
  | .zeroOrSingleOrMillions => [(.one, n ≤ 1), (.many, millions)]
  | .eastSlavic => [(.one, slavicOne), (.few, slavicFew), (.many, true)]
  | .southSlavic => [(.one, slavicOne), (.few, slavicFew)]
  | .zeroAndSingle => [(.zero, n == 0), (.one, n == 1)]
  | .slovene => [(.one, pair == 1), (.two, pair == 2), (.few, between pair 3 4)]
  | .czech => [(.one, n == 1), (.few, between n 2 4)]
  | .hebrew => [(.one, n == 1), (.two, n == 2)]
  | .icelandic => [(.one, slavicOne)]
  | .latvian => [(.zero, last == 0 || between pair 11 19), (.one, slavicOne)]
  | .filipino => [(.one, last != 4 && last != 6 && last != 9)]
  | .arabic =>
    [(.zero, n == 0), (.one, n == 1), (.two, n == 2), (.few, between pair 3 10),
      (.many, between pair 11 99)]
  | .breton =>
    [(.one, last == 1 && pair != 11 && pair != 71 && pair != 91),
      (.two, last == 2 && pair != 12 && pair != 72 && pair != 92),
      (.few, (last == 3 || last == 4 || last == 9) && !between pair 10 19 && !between pair 70 79 &&
        !between pair 90 99),
      (.many, millions)]
  | .welsh => [(.zero, n == 0), (.one, n == 1), (.two, n == 2), (.few, n == 3), (.many, n == 6)]
  | .irish => [(.one, n == 1), (.two, n == 2), (.few, between n 3 6), (.many, between n 7 10)]
  | .scottish =>
    [(.one, n == 1 || n == 11), (.two, n == 2 || n == 12),
      (.few, between n 3 10 || between n 13 19)]
  | .lithuanian =>
    [(.one, last == 1 && !between pair 11 19), (.few, between last 2 9 && !between pair 11 19)]
  | .maltese =>
    [(.one, n == 1), (.two, n == 2), (.few, n == 0 || between pair 3 10),
      (.many, between pair 11 19)]
  | .polish => [(.one, n == 1), (.few, slavicFew), (.many, true)]
  | .romanian => [(.one, n == 1), (.few, n == 0 || between pair 1 19)]

end PluralCategory

/-- The scripts that languages are written in, where it is not the Latin one. -/
def defaultScripts : List (String × List String) :=
  [("Cyrl", ["be", "bg", "cv", "kk", "ky", "mk", "mn", "ru", "sr", "tg", "uk"]),
   ("Arab", ["ar", "ckb", "fa", "ks", "ps", "sd", "ug", "ur"]),
   ("Deva", ["bho", "brx", "doi", "hi", "kok", "mr", "ne"]),
   ("Beng", ["as", "bn"]), ("Ethi", ["am", "ti"]), ("Grek", ["el"]), ("Geor", ["ka"]),
   ("Mlym", ["ml"]), ("Orya", ["or"]), ("Taml", ["ta"]), ("Telu", ["te"]), ("Cher", ["chr"]),
   ("Syrc", ["syr"]), ("Gujr", ["gu"]), ("Armn", ["hy"]), ("Knda", ["kn"]), ("Guru", ["pa"]),
   ("Sinh", ["si"]), ("Cans", ["csw"]), ("Hebr", ["he"]), ("Olck", ["sat"])]

def defaultScript (language : String) : String :=
  ((defaultScripts.find? fun s => s.2.contains language).map (·.1)).getD "Latn"

/-- The regions whose Portuguese follows that of Portugal. -/
def portugueseRegions : List String :=
  ["AO", "CH", "CV", "FR", "GQ", "GW", "LU", "MO", "MZ", "PT", "ST", "TL"]

/-- The family of a language tag. A region counts for Portuguese alone. A script that the language
is not written in by default has no rules, but Hindi in Latin letters follows English. -/
def PluralFamily.ofTag (t : LanguageTag) : PluralFamily :=
  if t.script.all (· == defaultScript t.language) then
    if t.language == "pt" && t.region.any portugueseRegions.contains then ofCode "pt-PT"
    else ofCode t.language
  else if t.language == "hi" && t.script == some "Latn" then ofCode "en"
  else .always

/-- The category of a whole number in a language. A text that is no language tag counts as
English. -/
def pluralCategory (language : String) (n : Int) : PluralCategory :=
  let family :=
    match LanguageTag.parse? language with
    | some t => PluralFamily.ofTag t
    | none => PluralFamily.ofCode "en"
  .firstOf (PluralCategory.conditions family n.natAbs)

end LiveDoc
