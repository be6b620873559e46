import Scriptlet.Tree.Json
import Scriptlet.Tree.Outline
import Scriptlet.Tree.Printer

/-!
# Output formats

The forms in which a program can be printed, each ended by a line feed. Any program has an outline
and a source text; as JSON it can be printed unless it nests too deep.
-/

namespace Scriptlet

/-- A form in which a program can be printed. -/
inductive Format where
  /-- JSON, one field to a line. -/
  | json
  /-- An outline of every node. -/
  | outline
  /-- Source text. -/
  | source
  deriving DecidableEq

namespace Format

/-- The format with the given name. -/
def ofName? (name : Text) : Option Format :=
  if name = utf8 "json" then some json
  else if name = utf8 "spew" then some outline
  else if name = utf8 "text" then some source
  else none

/-- The message for a name that is no format. -/
def unknown (name : Text) : Text := utf8 "unknown output format " ++ Text.quoted name

/-- A program in a format, or why it cannot be printed. -/
def print (f : Format) (p : Program) : Except Unwritable Text :=
  match f with
  | json => (Node.program p).writable.map fun v => v.indented 0 ++ [Text.lineFeed]
  | outline => .ok (p.outline.render 0 ++ [Text.lineFeed])
  | source => .ok (p.render ++ [Text.lineFeed])

end Format

/-- A program in the format with the given name, or the message that it cannot be printed or that
there is no such format. -/
def Program.print (p : Program) (formatName : Text) : Except Text Text :=
  match Format.ofName? formatName with
  | some f => (f.print p).mapError Unwritable.message
  | none => .error (Format.unknown formatName)

end Scriptlet
