import LiveDoc.Text.Split
import LiveDoc.Text.Width

/-! # Tables in a terminal

A frame around columns, with a double rule below the headings. A cell may have several lines; each
column is as wide as its widest line.
-/

namespace LiveDoc.Cli

/-- A cell by its lines. -/
abbrev Cell := List String

def cellOf (text : String) : Cell :=
  Text.split '\n' text

namespace Grid

def cellWidth (c : Cell) : Nat :=
  (c.map Text.width).foldl max 0

/-- The widest of the cells of each column. -/
def columnWidths : List (List Cell) → List Nat
  | [] => []
  | row :: rest =>
    rest.foldl (fun widths row => List.zipWith (fun w c => max w (cellWidth c)) widths row)
      (row.map cellWidth)

def pad (width : Nat) (s : String) : String :=
  s ++ String.ofList (List.replicate (width - Text.width s) ' ')

/-- One line of a row between the sides of the frame. -/
def line (widths : List Nat) (texts : List String) : String :=
  "│" ++ " ".intercalate (List.zipWith (fun w s => " " ++ pad w s ++ " ") widths texts) ++ "│"

/-- The lines of a row; a cell with fewer lines than others is filled up with empty ones. -/
def lines (widths : List Nat) (row : List Cell) : List String :=
  (List.range ((row.map List.length).foldl max 0)).map fun i =>
    line widths (row.map fun cell => (cell[i]?).getD "")

/-- A rule across all columns. -/
def rule (widths : List Nat) (left bar right : Char) : String :=
  let inner := widths.foldr (· + 2 + ·) (widths.length - 1)
  String.ofList (left :: List.replicate inner bar ++ [right])

/-- A table of headings and rows. -/
def render (headings : List Cell) (rows : List (List Cell)) : String :=
  let widths := columnWidths (headings :: rows)
  "\n".intercalate
    ([rule widths '┌' '─' '┐'] ++ lines widths headings ++ [rule widths '╞' '═' '╡'] ++
      rows.flatMap (lines widths) ++ [rule widths '└' '─' '┘'])

end Grid

end LiveDoc.Cli
