import Scriptlet.Text.Blank

/-!
# Diagnostics

How a message is shown: after a label, line by line. With colour the label is red, and a line that
holds nothing but a caret is green.
-/

namespace Scriptlet.Diagnostic

/-- Does the line hold nothing but a caret? -/
def isCaretLine (line : Text) : Bool := Text.trim line = utf8 "^"

/-- The label before a message. -/
def label (colour : Bool) : Text :=
  if colour then utf8 "\x1b[31;1merror: \x1b[0m" else utf8 "error: "

/-- A later line of a message. -/
def laterLine (colour : Bool) (line : Text) : Text :=
  if colour && isCaretLine line then
    utf8 "\x1b[32;1m" ++ line ++ [Text.lineFeed] ++ utf8 "\x1b[0m"
  else line ++ [Text.lineFeed]

/-- A message as it is shown. -/
def print (colour : Bool) (message : Text) : Text :=
  match Text.lines message with
  | [] => label colour ++ [Text.lineFeed]
  | first :: rest => label colour ++ first ++ [Text.lineFeed] ++ rest.flatMap (laterLine colour)

end Scriptlet.Diagnostic
