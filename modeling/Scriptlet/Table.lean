import Scriptlet.Text.Blank
import Scriptlet.Text.CellWidth

/-!
# Tables

Texts in rows and columns, framed by rules. A cell may have several lines. Headings are centred,
lines that are numbers stand on the right of their column, all others on the left.
-/

namespace Scriptlet

/-- A table: headings, and rows of as many cells. -/
structure Table where
  /-- The headings. -/
  headings : List Text
  /-- The rows. -/
  rows : List (List Text)

namespace Table

/-- Is the text one to three digits, or three where a comma stands before them? -/
def isGroup (first : Bool) (t : Text) : Bool :=
  t.all Text.isDigit && (if first then 1 ≤ t.length && t.length ≤ 3 else t.length = 3)

/-- Is the text digits only, or digits in groups of three divided by commas? -/
def isWhole (t : Text) : Bool :=
  (!t.isEmpty && t.all Text.isDigit) ||
    match Text.splitOn 44 t with
    | [] => false
    | first :: rest => isGroup true first && rest.all (isGroup false)

/-- Is the text a decimal number: a sign, digits, and digits after a point? -/
def isNumber (t : Text) : Bool :=
  let t := match t with
    | 45 :: r => r
    | r => r
  match Text.splitOn 46 t with
  | [whole] => isWhole whole
  | [whole, fraction] => isWhole whole && !fraction.isEmpty && fraction.all Text.isDigit
  | _ => false

/-- That many spaces. -/
def spaces (n : Nat) : Text := List.replicate n Text.space

/-- A line of a cell in a column of the given width. -/
def placed (width : Nat) (line : Text) : Text :=
  let gap := spaces (width - Text.cells line)
  if isNumber (Text.trim line) then gap ++ line else line ++ gap

/-- A heading in a column of the given width. -/
def centred (width : Nat) (heading : Text) : Text :=
  let gap := width - Text.cells heading
  spaces (gap / 2) ++ heading ++ spaces (gap - gap / 2)

/-- The width of a text with several lines. -/
def cellsAcross (t : Text) : Nat := ((Text.lines t).map Text.cells).foldl max 0

/-- The width of each column: that of its widest line. -/
def widths (t : Table) : List Nat :=
  t.rows.foldl (fun ws row => List.zipWith max ws (row.map cellsAcross))
    (t.headings.map cellsAcross)

/-- The line between two rows. -/
def rule (widths : List Nat) : Text :=
  utf8 "+" ++ (widths.flatMap fun w => List.replicate (w + 2) 45 ++ utf8 "+") ++ utf8 "\n"

/-- Cells of one line each, already as wide as their columns. -/
def lineOf (cells : List Text) : Text :=
  utf8 "|" ++ (cells.flatMap fun c => utf8 " " ++ c ++ utf8 " |") ++ utf8 "\n"

/-- The lines of a row: as many as its highest cell has; a cell with fewer is empty below. -/
def rowLines (widths : List Nat) (row : List Text) : Text :=
  let cells := row.map Text.lines
  let height := (cells.map List.length).foldl max 0
  (List.range height).flatMap fun i =>
    lineOf (List.zipWith (fun w c => placed w (c.getD i [])) widths cells)

/-- The table as text. -/
def render (t : Table) : Text :=
  let ws := t.widths
  rule ws ++ lineOf (List.zipWith centred ws t.headings) ++ rule ws
    ++ t.rows.flatMap (rowLines ws) ++ rule ws

end Table

end Scriptlet
