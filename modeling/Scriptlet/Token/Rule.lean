import Scriptlet.Text.Blank
import Scriptlet.Token

/-!
# Scanning rules

A rule says how many bytes at the front of a text it accepts, and whether they make a token or are
passed over. The rules stand in a table; at each place the first rule of the table that accepts at
least one byte is taken. A keyword is accepted wherever a text begins with its letters, so
`constant` is the keyword `const` and the name `ant`.
-/

namespace Scriptlet

/-- One entry of the scanning table. -/
structure Rule where
  /-- What the rule is called. -/
  name : Text
  /-- The kind of the token it makes; none if what it accepts is passed over. -/
  kind : Option Kind
  /-- How many bytes at the front of a text it accepts. -/
  accept : Text → Nat

namespace Rule

/-- Is the code point layout, which separates tokens: white space or a byte order mark? -/
def isLayout (code : Nat) : Bool := isBlank code || code = 0xFEFF

/-- The length of the run of layout at the front of a text. -/
def layoutLength : Text → Nat
  | [] => 0
  | b :: t =>
    let r := Rune.read b t
    if isLayout r.code then r.width + layoutLength ((b :: t).drop r.width) else 0
termination_by t => t.length
decreasing_by
  have := (Rune.read b t).pos
  simp only [List.length_drop, List.length_cons]
  omega

/-- Does the byte end a line comment? -/
def endsLine (b : UInt8) : Bool := b = Text.lineFeed || b = Text.carriageReturn

/-- The length of a line comment: from two slashes up to the end of the line. -/
def lineCommentLength (t : Text) : Nat :=
  if Text.startsWith t (utf8 "//") then (t.takeWhile fun b => !endsLine b).length else 0

/-- The length of a block comment, up to the first closing mark after the opening one. A comment
that is never closed is not accepted. -/
def blockCommentLength (t : Text) : Nat :=
  if Text.startsWith t (utf8 "/*") then
    match Text.find? (utf8 "*/") (t.drop 2) with
    | some i => i + 4
    | none => 0
  else 0

/-- The length of the word `w`, if the text begins with it. -/
def wordLength (w t : Text) : Nat := if Text.startsWith t w then w.length else 0

/-- The length of the run of the byte `b`. -/
def runLength (b : UInt8) (t : Text) : Nat := (t.takeWhile (· == b)).length

/-- One, if the text begins with the byte `b`. -/
def byteLength (b : UInt8) : Text → Nat
  | [] => 0
  | c :: _ => if c = b then 1 else 0

/-- May a name begin with the byte? -/
def isNameStart (b : UInt8) : Bool :=
  (97 ≤ b && b ≤ 122) || (65 ≤ b && b ≤ 90) || b = 95 || b = 36 || b = 35

/-- May the byte stand in a name after its first byte? -/
def isNamePart (b : UInt8) : Bool := isNameStart b || Text.isDigit b

/-- The length of a name. -/
def nameLength : Text → Nat
  | [] => 0
  | b :: t => if isNameStart b then (t.takeWhile isNamePart).length + 1 else 0

/-- The length of a run of digits. -/
def digitsLength (t : Text) : Nat := (t.takeWhile Text.isDigit).length

/-- The length of a text between two quotes `q`. There are no escapes, so it ends at the next `q`;
one that is never closed is not accepted. -/
def quotedLength (q : UInt8) : Text → Nat
  | [] => 0
  | b :: t =>
    if b = q then
      match t.idxOf? q with
      | some i => i + 2
      | none => 0
    else 0

/-- The rule of a keyword. -/
def keyword (k : Kind) : Rule := ⟨k.spelling, some k, wordLength k.spelling⟩

/-- The rule of a sign that is one byte. -/
def sign (k : Kind) (b : UInt8) : Rule := ⟨k.name, some k, byteLength b⟩

/-- The rule of a sign that may be repeated. -/
def repeated (k : Kind) (b : UInt8) : Rule := ⟨k.name, some k, runLength b⟩

/-- The scanning table. -/
def table : List Rule :=
  [⟨utf8 "whitespace", none, layoutLength⟩,
    ⟨utf8 "line comment", none, lineCommentLength⟩,
    ⟨utf8 "block comment", none, blockCommentLength⟩]
  ++ Kind.keywords.map keyword ++
  [repeated .semicolon 59, repeated .colon 58,
    sign .openParen 40, sign .closeParen 41, sign .comma 44, sign .assign 61,
    sign .openBrace 123, sign .closeBrace 125, sign .openBracket 91, sign .closeBracket 93,
    ⟨utf8 "identifier", some .identifier, nameLength⟩,
    ⟨utf8 "number", some .number, digitsLength⟩,
    ⟨utf8 "double-quoted string", some .string, quotedLength 34⟩,
    ⟨utf8 "single-quoted string", some .string, quotedLength 39⟩]

end Rule

/-- A rule with the bytes it accepts at some place. -/
structure Match where
  /-- The kind of the token, if there is one. -/
  kind : Option Kind
  /-- How many bytes are accepted. -/
  length : Nat
  /-- At least one byte is accepted. -/
  pos : 0 < length

/-- The first rule that accepts something at the front of the text. -/
def firstMatch? (rules : List Rule) (t : Text) : Option Match :=
  rules.findSome? fun r => if h : 0 < r.accept t then some ⟨r.kind, r.accept t, h⟩ else none

end Scriptlet
