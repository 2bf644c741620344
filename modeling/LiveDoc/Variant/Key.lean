import LiveDoc.Path
import LiveDoc.Variant.Dimension

/-! # Variant keys

A key is a base name, perhaps with the expression marker in front and tags behind. The order of the
tags does not count; of two values for one dimension the smaller stays.
-/

namespace LiveDoc

structure VariantKey where
  base : String
  expression : Bool
  dimensions : Table Dimension String
  deriving DecidableEq

namespace VariantKey

/-- Add a tag; a smaller value that is there already stays. -/
def addTag (dimensions : Table Dimension String) (t : Tag) : Table Dimension String :=
  match dimensions.get? t.dimension with
  | none => dimensions.insert t.dimension t.value
  | some old =>
    if compare t.value old = .lt then dimensions.insert t.dimension t.value else dimensions

/-- The key with a base name and written tags; empty tags do not count. -/
def ofParts (expression : Bool) (base : String) (tags : List String) : VariantKey :=
  ⟨base, expression, ((tags.filter (· != "")).map Tag.parse).foldl addTag .empty⟩

def parse (key : String) : VariantKey :=
  match Text.split ':' (unmark key) with
  | [] => ofParts (isMarked key) "" []
  | base :: tags => ofParts (isMarked key) base tags

/-- A key belongs to the slot of its base name. -/
theorem base_parse (key : String) : (parse key).base = slotName key := by
  have h := Text.head?_split ':' (unmark key)
  unfold parse slotName
  split
  · next hs => simp [hs] at h
  · next hs =>
    rw [hs, List.head?_cons, Option.some.injEq] at h
    exact h

def isPlain (k : VariantKey) : Bool :=
  k.dimensions.isEmpty

def tags (k : VariantKey) : List Tag :=
  k.dimensions.entries.map fun (d, v) => ⟨d, v⟩

/-- The written form, with the tags in the order of their dimensions. -/
def text (k : VariantKey) : String :=
  let name := ":".intercalate (k.base :: k.tags.map Tag.text)
  if k.expression then mark name else name

end VariantKey

end LiveDoc
