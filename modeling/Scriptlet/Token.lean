import Scriptlet.Text

/-!
# Tokens

The kinds of tokens, their names, numbers and spellings, and tokens themselves: a kind with the
bytes it was read from and where they stand.
-/

namespace Scriptlet

/-- The kind of a token. -/
inductive Kind where
  /-- The end of the text. -/
  | endOfInput
  /-- A run of digits. -/
  | number
  /-- Text between two equal quotes. -/
  | string
  /-- A name. -/
  | identifier
  /-- The word `declare`. -/
  | declare
  /-- The word `function`. -/
  | function
  /-- The word `return`. -/
  | return
  /-- The word `const`. -/
  | const
  /-- The sign `=`. -/
  | assign
  /-- A run of `;`. -/
  | semicolon
  /-- The sign `(`. -/
  | openParen
  /-- The sign `)`. -/
  | closeParen
  /-- An opening brace. -/
  | openBrace
  /-- A closing brace. -/
  | closeBrace
  /-- The sign `[`. -/
  | openBracket
  /-- The sign `]`. -/
  | closeBracket
  /-- The sign `,`. -/
  | comma
  /-- A run of `:`. -/
  | colon
  deriving DecidableEq

namespace Kind

/-- The name of a kind in messages. -/
def name : Kind → Text
  | endOfInput => utf8 "EOF"
  | number => utf8 "NUMBER"
  | string => utf8 "STRING"
  | identifier => utf8 "IDENTIFIER"
  | declare => utf8 "DECLARE"
  | function => utf8 "FUNCTION"
  | .return => utf8 "RETURN"
  | const => utf8 "CONST"
  | assign => utf8 "="
  | semicolon => utf8 ";"
  | openParen => utf8 "("
  | closeParen => utf8 ")"
  | openBrace => utf8 "\x7b"
  | closeBrace => utf8 "\x7d"
  | openBracket => utf8 "["
  | closeBracket => utf8 "]"
  | comma => utf8 ","
  | colon => utf8 ":"

/-- The keywords, in the order in which they are tried. -/
def keywords : List Kind := [declare, function, .return, const]

/-- Is the kind a keyword? -/
def isKeyword (k : Kind) : Bool := keywords.contains k

/-- Does a token of the kind carry a value? -/
def isLiteral (k : Kind) : Bool := k = number || k = string

/-- How a keyword is spelt; other kinds have no fixed spelling. -/
def spelling : Kind → Text
  | declare => utf8 "declare"
  | function => utf8 "function"
  | .return => utf8 "return"
  | const => utf8 "const"
  | _ => []

/-- The number of a kind. Two numbers mark the ends of the keywords and belong to no kind. -/
def toNat : Kind → Nat
  | endOfInput => 0
  | number => 1
  | string => 2
  | identifier => 3
  | declare => 5
  | function => 6
  | .return => 7
  | const => 8
  | assign => 10
  | semicolon => 11
  | openParen => 12
  | closeParen => 13
  | openBrace => 14
  | closeBrace => 15
  | openBracket => 16
  | closeBracket => 17
  | comma => 18
  | colon => 19

/-- All kinds, by increasing number. -/
def all : List Kind :=
  [endOfInput, number, string, identifier, declare, function, .return, const, assign, semicolon,
    openParen, closeParen, openBrace, closeBrace, openBracket, closeBracket, comma, colon]

/-- The kind with the given number. -/
def ofInt? (i : Int) : Option Kind := all.find? fun k => (k.toNat : Int) = i

/-- The name that a number has as a kind. -/
def nameOfInt (i : Int) : Text :=
  match ofInt? i with
  | some k => k.name
  | none => utf8 "token(" ++ Text.ofInt i ++ utf8 ")"

/-- How a token of the kind, read from `text`, is described. -/
def describe (k : Kind) (text : Text) : Text :=
  match k with
  | endOfInput => utf8 "end of input"
  | number | string | identifier => k.name ++ utf8 "(" ++ text ++ utf8 ")"
  | _ => k.name

end Kind

/-- A piece of the source with its kind. -/
structure Token where
  /-- The kind. -/
  kind : Kind
  /-- The bytes it was read from, quotes included. -/
  text : Text
  /-- The offset of its first byte. -/
  start : Nat
  /-- The offset after its last byte. -/
  stop : Nat
  deriving DecidableEq

/-- How a token is described. -/
def Token.describe (t : Token) : Text := t.kind.describe t.text

end Scriptlet
