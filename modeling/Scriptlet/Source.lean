import Scriptlet.Text.Rune

/-!
# Sources

A source is a named text with an index of its lines. Lines are divided at line feeds and columns
count runes, so a position can be shown to a reader; offsets are bytes. The context of an offset is
its line with a caret under it.
-/

namespace Scriptlet

/-- A text with the name under which its positions are shown. -/
structure Source where
  /-- The name, possibly empty. -/
  name : Text
  /-- The text itself. -/
  text : Text

/-- A place in a source. -/
structure Position where
  /-- The name of the source. -/
  file : Text
  /-- The line, counted from one. -/
  line : Nat
  /-- The column in runes, counted from one. -/
  column : Nat
  /-- The offset in bytes. -/
  offset : Nat

/-- A position as it is shown: `file:line:column`, without the file if it has no name. -/
def Position.text (p : Position) : Text :=
  let place := Text.ofNat p.line ++ utf8 ":" ++ Text.ofNat p.column
  if p.file.isEmpty then place else p.file ++ utf8 ":" ++ place

/-- The offsets, counted from `o`, at which a line starts after a line feed of the text. -/
def startsAfter (o : Nat) : Text → List Nat
  | [] => []
  | b :: t => if b = Text.lineFeed then (o + 1) :: startsAfter (o + 1) t else startsAfter (o + 1) t

/-- The offset at which each line of the text starts. -/
def lineStarts (t : Text) : Array Nat := (0 :: startsAfter 0 t).toArray

/-- The least index from `lo` on, and at most `hi`, whose entry is beyond `o`, by halving. -/
def firstBeyond (starts : Array Nat) (o lo hi : Nat) : Nat :=
  if lo < hi then
    let mid := (lo + hi) / 2
    if o < starts.getD mid 0 then firstBeyond starts o lo mid
    else firstBeyond starts o (mid + 1) hi
  else lo
termination_by hi - lo
decreasing_by all_goals omega

namespace Source

variable (s : Source)

/-- The length in bytes. -/
def size : Nat := s.text.length

/-- The line index. -/
def starts : Array Nat := lineStarts s.text

/-- How many lines there are; an empty source has one. -/
def lineCount : Nat := s.starts.size

/-- The offset moved into the text. -/
def clamp (offset : Int) : Nat := min offset.toNat s.size

/-- The position of an offset, found with the line index `starts`; an offset outside the text is
moved to its nearer end. -/
def positionIn (starts : Array Nat) (offset : Int) : Position :=
  let o := s.clamp offset
  let i := firstBeyond starts o 0 starts.size - 1
  let start := starts.getD i 0
  { file := s.name, line := i + 1, offset := o
    column := Text.runeCount ((s.text.drop start).take (o - start)) + 1 }

/-- The position of an offset. -/
def position (offset : Int) : Position := s.positionIn s.starts offset

/-- The line with the given number, without its line feed and without a carriage return before that;
empty if there is no such line. -/
def line (n : Int) : Text :=
  if n < 1 || s.lineCount < n then []
  else
    let i := n.toNat
    let start := s.starts.getD (i - 1) 0
    let stop := if i < s.lineCount then s.starts.getD i 0 - 1 else s.size
    Text.dropEnd ((s.text.take stop).drop start) [Text.carriageReturn]

/-- What stands before the caret under column `column` of a line: a blank for each rune of the line
before that column, and a tab under a tab. -/
def caretIndent (line : Text) (column : Nat) : Text :=
  ((Text.runes line).take (column - 1)).map fun r =>
    if r.1.code = Text.tab.toNat then Text.tab else Text.space

/-- The line of an offset, and below it a caret at the offset's column. -/
def context (offset : Int) : Text :=
  let p := s.position offset
  let line := s.line p.line
  line ++ [Text.lineFeed] ++ caretIndent line p.column ++ utf8 "^"

end Source

end Scriptlet
