import LiveDoc.Text.Distance

/-! # Suggestions for unknown names -/

namespace LiveDoc

/-- How far a suggestion may lie from a name: one edit for a name of at most three bytes, else
two. -/
def suggestionReach (name : String) : Nat :=
  if name.utf8ByteSize ≤ 3 then 1 else 2

/-- Up to three of the available names that lie near an unknown one, nearest first. -/
def suggestions (name : String) (available : List String) : List String :=
  let near := (available.map fun c => (Text.distance name c, c)).filter fun (d, _) =>
    0 < d && d ≤ suggestionReach name
  let sorted := near.mergeSort fun a b => ((compare a.1 b.1).then (compare a.2 b.2)).isLE
  (sorted.take 3).map (·.2)

end LiveDoc
