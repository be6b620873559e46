import Scriptlet.Text.Rune
import Scriptlet.Text.Printable

/-!
# Quoted text

A text between double quotes, with everything escaped that could not be read off a screen:
controls, malformed bytes and characters that are not printable.
-/

namespace Scriptlet.Text

/-- The escape of a control character that has a letter, and of the quote and the backslash. -/
def shortEscape? (code : Nat) : Option Text :=
  match code with
  | 7 => some (utf8 "\\a")
  | 8 => some (utf8 "\\b")
  | 9 => some (utf8 "\\t")
  | 10 => some (utf8 "\\n")
  | 11 => some (utf8 "\\v")
  | 12 => some (utf8 "\\f")
  | 13 => some (utf8 "\\r")
  | 34 => some (utf8 "\\\"")
  | 92 => some (utf8 "\\\\")
  | _ => none

/-- How one rune, standing for the given bytes, is written between the quotes. -/
def quotedRune (r : Rune) (bytes : Text) : Text :=
  if r.wellFormed then
    match shortEscape? r.code with
    | some e => e
    | none =>
      if isPrintable r.code then bytes
      else if r.code < 0x20 || r.code = 0x7F then utf8 "\\x" ++ hex 2 r.code
      else if r.code < 0x10000 then utf8 "\\u" ++ hex 4 r.code
      else utf8 "\\U" ++ hex 8 r.code
  else bytes.flatMap fun b => utf8 "\\x" ++ hex 2 b.toNat

/-- The text between double quotes. -/
def quoted (t : Text) : Text :=
  34 :: ((runes t).flatMap fun r => quotedRune r.1 r.2) ++ [34]

end Scriptlet.Text
