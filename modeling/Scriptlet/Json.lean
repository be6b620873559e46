import Scriptlet.Number.Decimal
import Scriptlet.Text.Rune

/-!
# JSON

JSON values, written without white space or with one element to a line. In strings the quote, the
backslash and the controls are escaped, and so are the characters that have a meaning in a web page
and the two separators that end lines there; a malformed byte is written as `U+FFFD`.

A text may nest lists and objects only so deep (`Json.nestingLimit`).
-/

namespace Scriptlet

/-- A JSON value. The fields of an object stand in the order in which they are written. -/
inductive Json where
  /-- The null. -/
  | null
  /-- A whole number. -/
  | integer (i : Int)
  /-- A number that need not be whole. -/
  | real (x : Binary64)
  /-- A string. -/
  | string (t : Text)
  /-- A list of values. -/
  | array (elements : List Json)
  /-- Named values. -/
  | object (fields : List (Text × Json))

namespace Json

/-- How many lists and objects may stand inside one another in a text. -/
def nestingLimit : Nat := 10000

mutual

/-- How many lists and objects stand inside one another in a value. -/
def nesting : Json → Nat
  | array elements => nestingAll elements + 1
  | object fields => nestingFields fields + 1
  | _ => 0

/-- The deepest nesting among values. -/
def nestingAll : List Json → Nat
  | [] => 0
  | e :: es => max e.nesting (nestingAll es)

/-- The deepest nesting among the values of fields. -/
def nestingFields : List (Text × Json) → Nat
  | [] => 0
  | (_, v) :: fs => max v.nesting (nestingFields fs)

end

/-- Numbers in JSON: with an exponent below a millionth and from `10 ^ 21` on. What is no finite
number is null. -/
def numberLayout : Binary64.Layout :=
  ⟨-6, 21, 1, utf8 "null", utf8 "null", utf8 "null"⟩

/-- The escape of a character, if it is escaped. -/
def escape? (code : Nat) : Option Text :=
  match code with
  | 8 => some (utf8 "\\b")
  | 9 => some (utf8 "\\t")
  | 10 => some (utf8 "\\n")
  | 12 => some (utf8 "\\f")
  | 13 => some (utf8 "\\r")
  | 34 => some (utf8 "\\\"")
  | 92 => some (utf8 "\\\\")
  | _ =>
    if code < 0x20 || code = 60 || code = 62 || code = 38 || code = 0x2028 || code = 0x2029 then
      some (utf8 "\\u" ++ Text.hex 4 code)
    else none

/-- One character of a string, standing for the given bytes. -/
def stringRune (r : Rune) (bytes : Text) : Text :=
  match escape? r.code with
  | some e => e
  | none => if r.wellFormed then bytes else Rune.encode Rune.replacement

/-- A string with its quotes. -/
def quote (t : Text) : Text :=
  34 :: ((Text.runes t).flatMap fun r => stringRune r.1 r.2) ++ [34]

mutual

/-- A value without white space, and then `rest`. -/
def compactThen : Json → (rest : Text) → Text
  | null, rest => utf8 "null" ++ rest
  | integer i, rest => Text.ofInt i ++ rest
  | real x, rest => x.toText numberLayout ++ rest
  | string t, rest => quote t ++ rest
  | array [], rest => utf8 "[]" ++ rest
  | array (e :: es), rest => utf8 "[" ++ e.compactThen (compactMore es (utf8 "]" ++ rest))
  | object [], rest => utf8 "\x7b\x7d" ++ rest
  | object ((name, v) :: fs), rest =>
    utf8 "\x7b" ++ quote name ++ utf8 ":" ++ v.compactThen (compactFields fs (utf8 "\x7d" ++ rest))

/-- Further elements of a list without white space, each after a comma, and then `rest`. -/
def compactMore : List Json → (rest : Text) → Text
  | [], rest => rest
  | e :: es, rest => utf8 "," ++ e.compactThen (compactMore es rest)

/-- Further fields of an object without white space, each after a comma, and then `rest`. -/
def compactFields : List (Text × Json) → (rest : Text) → Text
  | [], rest => rest
  | (name, v) :: fs, rest =>
    utf8 "," ++ quote name ++ utf8 ":" ++ v.compactThen (compactFields fs rest)

end

/-- A value without white space. -/
def compact (v : Json) : Text := v.compactThen []

/-- A new line at the given depth. -/
def newLine (depth : Nat) : Text := Text.lineFeed :: List.replicate (2 * depth) Text.space

mutual

/-- A value with one element or field to a line, at the given depth, and then `rest`. -/
def indentedThen (depth : Nat) : Json → (rest : Text) → Text
  | null, rest => utf8 "null" ++ rest
  | integer i, rest => Text.ofInt i ++ rest
  | real x, rest => x.toText numberLayout ++ rest
  | string t, rest => quote t ++ rest
  | array [], rest => utf8 "[]" ++ rest
  | array (e :: es), rest =>
    utf8 "[" ++ newLine (depth + 1)
      ++ e.indentedThen (depth + 1)
        (indentedMore (depth + 1) es (newLine depth ++ utf8 "]" ++ rest))
  | object [], rest => utf8 "\x7b\x7d" ++ rest
  | object ((name, v) :: fs), rest =>
    utf8 "\x7b" ++ newLine (depth + 1) ++ quote name ++ utf8 ": "
      ++ v.indentedThen (depth + 1)
        (indentedFields (depth + 1) fs (newLine depth ++ utf8 "\x7d" ++ rest))

/-- Further elements of a list, each after a comma on a line at the given depth, and then `rest`. -/
def indentedMore (depth : Nat) : List Json → (rest : Text) → Text
  | [], rest => rest
  | e :: es, rest =>
    utf8 "," ++ newLine depth ++ e.indentedThen depth (indentedMore depth es rest)

/-- Further fields of an object, each after a comma on a line at the given depth, and then
`rest`. -/
def indentedFields (depth : Nat) : List (Text × Json) → (rest : Text) → Text
  | [], rest => rest
  | (name, v) :: fs, rest =>
    utf8 "," ++ newLine depth ++ quote name ++ utf8 ": "
      ++ v.indentedThen depth (indentedFields depth fs rest)

end

/-- A value with one element or field to a line, at the given depth. -/
def indented (depth : Nat) (v : Json) : Text := v.indentedThen depth []

end Json

end Scriptlet
