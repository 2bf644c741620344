/-! # Edit distance

The least number of insertions, deletions and replacements of a character that turns one text into
another, computed a row of prefixes at a time.
-/

namespace LiveDoc.Text

/-- The next row: `corner` is the entry above and to the left, `left` the entry to the left. -/
def distanceRow (c : Char) : List Char → List Nat → Nat → Nat → List Nat
  | d :: ds, above :: row, corner, left =>
    let cost := if c = d then corner else corner + 1
    let here := min cost (min (above + 1) (left + 1))
    here :: distanceRow c ds row above here
  | _, _, _, _ => []

/-- Rows for the characters of the first text; each row starts with the length read so far. -/
def distanceRows (target : List Char) : List Char → Nat → List Nat → List Nat
  | [], _, row => row
  | c :: cs, read, row =>
    match row with
    | [] => []
    | corner :: above =>
      distanceRows target cs (read + 1)
        ((read + 1) :: distanceRow c target above corner (read + 1))

def distance (a b : String) : Nat :=
  let target := b.toList
  (distanceRows target a.toList 0 (List.range (target.length + 1))).getLast?.getD 0

end LiveDoc.Text
