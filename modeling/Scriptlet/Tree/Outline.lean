import Scriptlet.Number.Decimal
import Scriptlet.Outline
import Scriptlet.Text.Quoted
import Scriptlet.Tree

/-!
# Programs as outlines

A node is a record that shows its span and then every field, also those that are empty.
-/

namespace Scriptlet

/-- Numbers in outlines: with an exponent below `10 ^ -4` and from `10 ^ 6` on. -/
def outlineNumberLayout : Binary64.Layout :=
  ⟨-4, 6, 2, utf8 "+Inf", utf8 "-Inf", utf8 "NaN"⟩

/-- A text with its length in bytes; an empty one without. -/
def outlineText (t : Text) : Outline :=
  .leaf (utf8 "(string) " ++
    (if t.isEmpty then [] else utf8 "(len=" ++ Text.ofNat t.length ++ utf8 ") ") ++ Text.quoted t)

/-- A span. -/
def Span.outline (s : Span) : Outline :=
  .record (utf8 "(ast.Span) ") []
    [(utf8 "Start", .leaf (utf8 "(int) " ++ Text.ofInt s.start)),
      (utf8 "End", .leaf (utf8 "(int) " ++ Text.ofInt s.stop))]

/-- A node: its type, its span, then its own fields. -/
def nodeOutline (type : Text) (span : Span) (fields : List (Text × Outline)) : Outline :=
  .record (utf8 "(*ast." ++ type ++ utf8 ")(") (utf8 ")") ((utf8 "Span", span.outline) :: fields)

/-- A list of the given element type. -/
def outlineList (type : String) (elements : List Outline) : Outline :=
  if elements.isEmpty then .leaf (utf8 "([]" ++ utf8 type ++ utf8 ") <nil>")
  else .sequence (utf8 "([]" ++ utf8 type ++ utf8 ")") elements

/-- A name. -/
def Identifier.outline (id : Identifier) : Outline :=
  nodeOutline (utf8 "Identifier") id.span
    [(utf8 "Name", outlineText id.name), (utf8 "ValueType", outlineText (id.typeName.getD []))]

mutual

/-- An expression. -/
def Expression.outline : Expression → Outline
  | .identifier id => id.outline
  | .number span value raw =>
    nodeOutline (utf8 "NumericLiteral") span
      [(utf8 "Value", .leaf (utf8 "(float64) " ++ value.toText outlineNumberLayout)),
        (utf8 "Raw", outlineText raw)]
  | .string span value raw =>
    nodeOutline (utf8 "StringLiteral") span
      [(utf8 "Value", outlineText value), (utf8 "Raw", outlineText raw)]
  | .call span callee arguments =>
    nodeOutline (utf8 "CallExpression") span
      [(utf8 "Callee", callee.outline),
        (utf8 "Arguments", outlineList "ast.Expression" (Expression.outlineAll arguments))]

/-- Expressions. -/
def Expression.outlineAll : List Expression → List Outline
  | [] => []
  | e :: es => e.outline :: Expression.outlineAll es

end

/-- The fields of the head of a function. -/
def signatureOutline (id : Identifier) (params : List Identifier) (returnType : Option Text) :
    List (Text × Outline) :=
  [(utf8 "ID", id.outline),
    (utf8 "Params", outlineList "*ast.Identifier" (params.map Identifier.outline)),
    (utf8 "ReturnType", outlineText (returnType.getD []))]

mutual

/-- A statement. -/
def Statement.outline : Statement → Outline
  | .declaration span id params returnType =>
    nodeOutline (utf8 "FunctionDeclaration") span (signatureOutline id params returnType)
  | .definition span id params returnType bodySpan body =>
    nodeOutline (utf8 "FunctionDefinition") span (signatureOutline id params returnType ++
      [(utf8 "Body", nodeOutline (utf8 "BlockStatement") bodySpan
        [(utf8 "Body", outlineList "ast.Statement" (Statement.outlineAll body))])])
  | .constant span id value =>
    nodeOutline (utf8 "ConstantDefinition") span
      [(utf8 "ID", id.outline), (utf8 "Value", value.outline)]
  | .return span none =>
    nodeOutline (utf8 "ReturnStatement") span
      [(utf8 "Argument", .leaf (utf8 "(ast.Expression) <nil>"))]
  | .return span (some e) =>
    nodeOutline (utf8 "ReturnStatement") span [(utf8 "Argument", e.outline)]
  | .expression e => e.outline
  | .block span body =>
    nodeOutline (utf8 "BlockStatement") span
      [(utf8 "Body", outlineList "ast.Statement" (Statement.outlineAll body))]

/-- Statements. -/
def Statement.outlineAll : List Statement → List Outline
  | [] => []
  | s :: rest => s.outline :: Statement.outlineAll rest

end

/-- A program. -/
def Program.outline (p : Program) : Outline :=
  nodeOutline (utf8 "Program") p.span
    [(utf8 "Body", outlineList "ast.Statement" (Statement.outlineAll p.body))]

end Scriptlet
