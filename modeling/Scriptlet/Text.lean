/-!
# Texts

A text is the list of its bytes. Source files, file names, names inside programs and everything
that is printed are texts, and none of them has to be well-formed UTF-8, so offsets and lengths
are counted in bytes throughout.
-/

namespace Scriptlet

/-- A text is its bytes. -/
abbrev Text := List UInt8

/-- The UTF-8 bytes of a string. -/
def utf8 (s : String) : Text := s.toByteArray.data.toList

namespace Text

/-- The tab. -/
def tab : UInt8 := 9

/-- The line feed, which ends a line. -/
def lineFeed : UInt8 := 10

/-- The carriage return. -/
def carriageReturn : UInt8 := 13

/-- The space. -/
def space : UInt8 := 32

/-- Does the text begin with the word `w`? -/
def startsWith (t w : Text) : Bool := w.isPrefixOf t

/-- Does the text end with the word `w`? -/
def endsWith (t w : Text) : Bool := w.isSuffixOf t

/-- Is the byte an ASCII digit? -/
def isDigit (b : UInt8) : Bool := 48 ≤ b && b ≤ 57

/-- Where the word `w` first occurs. -/
def find? (w : Text) : Text → Option Nat
  | [] => if w.isEmpty then some 0 else none
  | b :: t => if startsWith (b :: t) w then some 0 else (find? w t).map (· + 1)

/-- The pieces between the occurrences of a byte; there is always one piece more than
occurrences. -/
def splitOn (sep : UInt8) : Text → List Text
  | [] => [[]]
  | b :: t =>
    if b = sep then [] :: splitOn sep t
    else
      match splitOn sep t with
      | [] => [[b]]
      | piece :: pieces => (b :: piece) :: pieces

/-- The lines of a text, divided at line feeds. -/
def lines (t : Text) : List Text := splitOn lineFeed t

/-- The texts one after the other, with `sep` between neighbours. -/
def join (sep : Text) (parts : List Text) : Text := sep.intercalate parts

/-- The text without the word `w` at its end, if it ends with it. -/
def dropEnd (t w : Text) : Text := if endsWith t w then t.take (t.length - w.length) else t

/-- Every line moved right by one tab. -/
def indent (t : Text) : Text :=
  tab :: t.flatMap fun b => if b = lineFeed then [lineFeed, tab] else [b]

/-- A natural number in decimal digits. -/
def ofNat (n : Nat) : Text := (Nat.toDigits 10 n).map fun c => c.toNat.toUInt8

/-- An integer in decimal digits, with a minus sign if it is negative. -/
def ofInt (i : Int) : Text := if i < 0 then 45 :: ofNat i.natAbs else ofNat i.natAbs

/-- A hexadecimal digit, in lower case. -/
def hexDigit (n : Nat) : UInt8 := if n < 10 then (48 + n).toUInt8 else (87 + n).toUInt8

/-- The last `width` hexadecimal digits of a number. -/
def hex : (width : Nat) → Nat → Text
  | 0, _ => []
  | width + 1, n => hex width (n / 16) ++ [hexDigit (n % 16)]

/-- The byte-wise order of texts: the first difference decides, and a beginning comes first. -/
def le : Text → Text → Bool
  | [], _ => true
  | _ :: _, [] => false
  | a :: s, b :: t => a < b || (a = b && le s t)

end Text

end Scriptlet
