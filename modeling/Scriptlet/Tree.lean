import Scriptlet.Number.Binary64
import Scriptlet.Text

/-!
# Programs

The trees that texts are parsed into. A program is a list of statements; a statement declares or
defines a function, defines a constant, returns, or is an expression. Blocks may stand among the
statements too, though no text parses to such a tree. Each node knows the bytes it was read from.
-/

namespace Scriptlet

/-- A range of bytes, its end excluded. -/
structure Span where
  /-- The offset of the first byte. -/
  start : Int
  /-- The offset after the last byte. -/
  stop : Int
  deriving DecidableEq

/-- How many bytes a span covers, as a signed 64-bit word. -/
def Span.length (s : Span) : Int := (s.stop - s.start).bmod 18446744073709551616

/-- A name, with a type where one is given. -/
structure Identifier where
  /-- The bytes of the name alone. -/
  span : Span
  /-- The name. -/
  name : Text
  /-- The name of its type. -/
  typeName : Option Text
  deriving DecidableEq

/-- A node that has a value. -/
inductive Expression where
  /-- A name. -/
  | identifier (id : Identifier)
  /-- A number, its value and its digits. -/
  | number (span : Span) (value : Binary64) (raw : Text)
  /-- A string, the text between the quotes and the text with them. -/
  | string (span : Span) (value raw : Text)
  /-- A call. -/
  | call (span : Span) (callee : Identifier) (arguments : List Expression)

/-- An element of a program or of a block. -/
inductive Statement where
  /-- A function without a body. -/
  | declaration (span : Span) (id : Identifier) (params : List Identifier)
      (returnType : Option Text)
  /-- A function with a body. -/
  | definition (span : Span) (id : Identifier) (params : List Identifier)
      (returnType : Option Text) (bodySpan : Span) (body : List Statement)
  /-- A constant. -/
  | constant (span : Span) (id : Identifier) (value : Expression)
  /-- The end of a function, with a value if one is given. -/
  | return (span : Span) (argument : Option Expression)
  /-- An expression. -/
  | expression (e : Expression)
  /-- A list of statements between braces. -/
  | block (span : Span) (body : List Statement)

/-- A whole text. -/
structure Program where
  /-- All bytes of the text. -/
  span : Span
  /-- The statements. -/
  body : List Statement

/-- A node of a tree. -/
inductive Node where
  /-- The root. -/
  | program (p : Program)
  /-- Any other node. -/
  | statement (s : Statement)

/-- The bytes an expression was read from. -/
def Expression.span : Expression → Span
  | identifier id => id.span
  | number span _ _ => span
  | string span _ _ => span
  | call span _ _ => span

/-- The bytes a statement was read from. -/
def Statement.span : Statement → Span
  | declaration span _ _ _ => span
  | definition span _ _ _ _ _ => span
  | constant span _ _ => span
  | .return span _ => span
  | expression e => e.span
  | block span _ => span

/-- The bytes a node was read from. -/
def Node.span : Node → Span
  | program p => p.span
  | statement s => s.span

/-- What an expression is called. -/
def Expression.typeName : Expression → Text
  | identifier _ => utf8 "Identifier"
  | number _ _ _ => utf8 "NumericLiteral"
  | string _ _ _ => utf8 "StringLiteral"
  | call _ _ _ => utf8 "CallExpression"

/-- What a statement is called. -/
def Statement.typeName : Statement → Text
  | declaration _ _ _ _ => utf8 "FunctionDeclaration"
  | definition _ _ _ _ _ _ => utf8 "FunctionDefinition"
  | constant _ _ _ => utf8 "ConstantDefinition"
  | .return _ _ => utf8 "ReturnStatement"
  | expression e => e.typeName
  | block _ _ => utf8 "BlockStatement"

/-- What a node is called. -/
def Node.typeName : Node → Text
  | program _ => utf8 "Program"
  | statement s => s.typeName

end Scriptlet
