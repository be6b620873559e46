import Scriptlet.Diagnostic
import Scriptlet.Parse
import Scriptlet.Tree.Format

/-!
# The console

A console takes lines one at a time. Lines that do not yet make a program, but may with more lines,
stay pending; as soon as they are a program it is printed, and as soon as no more lines can help the
failure is shown and they are dropped.
-/

namespace Scriptlet

/-- A console between two lines. -/
structure Console where
  /-- The name of the format in which programs are printed. -/
  format : Text
  /-- The limit on nesting. -/
  maxDepth : Int
  /-- The lines that wait for more. -/
  pending : List Text

/-- What a console does with a line. -/
structure Reaction where
  /-- The console after the line. -/
  console : Console
  /-- Does it wait for more lines? -/
  more : Bool
  /-- What it prints. -/
  out : Text

/-- May more text mend the failure: has the text ended too early, or inside a comment or string? -/
def Failure.isIncomplete (f : Failure) (t : Text) : Bool :=
  match f.cause with
  | .unexpectedEnd _ => true
  | .unexpectedCharacter _ =>
    let rest := t.drop f.offset
    Text.startsWith rest (utf8 "/*") || Text.startsWith rest (utf8 "\"")
      || Text.startsWith rest (utf8 "'")
  | _ => false

namespace Console

/-- The name of what is typed in. -/
def sourceName : Text := utf8 "<repl>"

/-- The console without pending lines. -/
def reset (c : Console) : Console := { c with pending := [] }

/-- Takes a line. -/
def feed (c : Console) (line : Text) : Reaction :=
  let pending := c.pending ++ [line]
  let text := Text.join [Text.lineFeed] pending
  match parse c.maxDepth text with
  | .error f =>
    if f.isIncomplete text then ⟨{ c with pending := pending }, true, []⟩
    else ⟨c.reset, false, Diagnostic.print false (f.message ⟨sourceName, text⟩)⟩
  | .ok p =>
    match p.print c.format with
    | .ok out => ⟨c.reset, false, out⟩
    | .error message => ⟨c.reset, false, message ++ [Text.lineFeed]⟩

end Console

end Scriptlet
