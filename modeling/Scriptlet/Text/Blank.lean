import Scriptlet.Text.Rune

/-!
# White space

The runes that count as white space, and texts without it at their ends.
-/

namespace Scriptlet

/-- Is the code point white space: the ASCII blanks, the next-line control, and the space, line and
paragraph separators of Unicode? -/
def isBlank (code : Nat) : Bool :=
  (9 ≤ code && code ≤ 13) || code = 0x20 || code = 0x85 || code = 0xA0 || code = 0x1680
    || (0x2000 ≤ code && code ≤ 0x200A) || code = 0x2028 || code = 0x2029 || code = 0x202F
    || code = 0x205F || code = 0x3000

namespace Text

/-- The text without the white space at its two ends. -/
def trim (t : Text) : Text :=
  let blank := fun r : Rune × Text => isBlank r.1.code
  let kept := (((runes t).dropWhile blank).reverse.dropWhile blank).reverse
  kept.flatMap fun r => r.2

/-- Does the text hold nothing but white space? -/
def isBlankText (t : Text) : Bool := (runes t).all fun r => isBlank r.1.code

end Text

end Scriptlet
