import LiveDoc.Text.Letter
import LiveDoc.Text.WidthTable

/-! # The width of texts on a terminal -/

namespace LiveDoc.Text

def charWidth (c : Char) : Nat :=
  if c.toNat < 0x80 then 1
  else if inRanges zeroWidthRanges c.toNat then 0
  else if inRanges wideRanges c.toNat then 2
  else 1

/-- How many columns a text takes. -/
def width (s : String) : Nat :=
  s.toList.foldr (charWidth · + ·) 0

end LiveDoc.Text
