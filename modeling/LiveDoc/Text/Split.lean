/-! # Cutting texts at a separator -/

namespace LiveDoc.Text

/-- The parts between the separators; there is always at least one. -/
def splitChars (sep : Char) : List Char → List (List Char)
  | [] => [[]]
  | c :: rest =>
    if c = sep then
      [] :: splitChars sep rest
    else
      match splitChars sep rest with
      | [] => [[c]]
      | part :: parts => (c :: part) :: parts

def split (sep : Char) (s : String) : List String :=
  (splitChars sep s.toList).map String.ofList

/-- The text before and after the first separator, if there is one. -/
def cut? (sep : Char) (s : String) : Option (String × String) :=
  let cs := s.toList
  match cs.dropWhile (· != sep) with
  | [] => none
  | _ :: after => some (String.ofList (cs.takeWhile (· != sep)), String.ofList after)

theorem head?_splitChars (sep : Char) (cs : List Char) :
    (splitChars sep cs).head? = some (cs.takeWhile (· != sep)) := by
  induction cs with
  | nil => rfl
  | cons c rest ih =>
    by_cases h : c = sep
    · simp [splitChars, h]
    · cases hs : splitChars sep rest with
      | nil => simp [hs] at ih
      | cons part parts =>
        rw [hs] at ih
        simp_all [splitChars]

theorem head?_split (sep : Char) (s : String) :
    (split sep s).head? = some (((cut? sep s).map (·.1)).getD s) := by
  simp only [split, List.head?_map, head?_splitChars, Option.map_some, cut?]
  cases h : s.toList.dropWhile (· != sep) with
  | nil =>
    have hs := List.takeWhile_append_dropWhile (p := (· != sep)) (l := s.toList)
    rw [h, List.append_nil] at hs
    simp [hs]
  | cons c rest => rfl

/-- The rest of a text that starts with the given character. -/
def stripHead? (head : Char) (s : String) : Option String :=
  match s.toList with
  | c :: rest => if c = head then some (String.ofList rest) else none
  | [] => none

end LiveDoc.Text
