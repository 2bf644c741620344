import LiveDoc.Table
import LiveDoc.Variant.Language

/-! # Dimensions

What the variants of a slot differ in. Each colon-separated tag of a key gives a value on one
dimension, and so does each entry of a context.
-/

namespace LiveDoc

inductive Dimension where
  | language
  | gender
  | formality
  | custom (name : String)
  deriving DecidableEq, Repr

namespace Dimension

def ofName (name : String) : Dimension :=
  if name = "lang" ∨ name = "language" then .language
  else if name = "gender" then .gender
  else if name = "formality" then .formality
  else .custom name

def name : Dimension → String
  | .language => "lang"
  | .gender => "gender"
  | .formality => "formality"
  | .custom name => name

/-- What a match on the dimension is worth. -/
def weight : Dimension → Nat
  | .language => 1000
  | .gender => 100
  | .formality => 50
  | .custom _ => 10

/-- The form in which values of the dimension are compared. -/
def normalize (d : Dimension) (value : String) : String :=
  match d with
  | .language => (canonicalLanguage? value).getD value
  | .gender | .formality => Text.lowerAscii value
  | .custom _ => value

/-- Named dimensions come before custom ones, which are ordered by name. -/
def rank : Dimension → Nat × String
  | .language => (0, "")
  | .gender => (1, "")
  | .formality => (2, "")
  | .custom name => (3, name)

theorem rank_injective {d e : Dimension} (h : d.rank = e.rank) : d = e := by
  cases d <;> cases e <;> simp_all [rank]

instance : Ord Dimension :=
  ⟨compareLex (compareOn fun d => d.rank.1) (compareOn fun d => d.rank.2)⟩

instance : Std.TransOrd Dimension :=
  inferInstanceAs (Std.TransCmp (compareLex (compareOn fun d : Dimension => d.rank.1)
    (compareOn fun d : Dimension => d.rank.2)))

instance : Std.LawfulEqOrd Dimension where
  eq_of_compare h := by
    obtain ⟨h₁, h₂⟩ := Ordering.then_eq_eq.1 h
    exact rank_injective (Prod.ext (Std.LawfulEqOrd.eq_of_compare h₁)
      (Std.LawfulEqOrd.eq_of_compare h₂))

end Dimension

/-- The value of a tag on a dimension. -/
structure Tag where
  dimension : Dimension
  value : String
  deriving DecidableEq, Repr

namespace Tag

/-- Give a value to a named dimension. -/
def ofEntry (name value : String) : Tag :=
  let d := Dimension.ofName name
  ⟨d, d.normalize value⟩

/-- A tag without a name is a gender or a formality, else a language, else a custom dimension that
has the tag as its name. -/
def ofWord (word : String) : Tag :=
  let lowered := Text.lowerAscii word
  if lowered ∈ ["m", "f", "n"] then ⟨.gender, lowered⟩
  else if lowered ∈ ["formal", "informal"] then ⟨.formality, lowered⟩
  else
    match canonicalLanguage? word with
    | some language => ⟨.language, language⟩
    | none => ⟨.custom word, word⟩

/-- Read a tag; `name=value` gives the dimension by name. -/
def parse (tag : String) : Tag :=
  match Text.cut? '=' tag with
  | some (name, value) => ofEntry name value
  | none => ofWord tag

/-- A custom tag that stands for itself. -/
def isFlag (t : Tag) : Bool :=
  t.dimension == .custom t.value

/-- The written form of a tag. -/
def text (t : Tag) : String :=
  match t.dimension with
  | .custom name => if name = t.value then t.value else name ++ "=" ++ t.value
  | _ => t.value

end Tag

end LiveDoc
