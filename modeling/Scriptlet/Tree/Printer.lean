import Scriptlet.Tree

/-!
# Programs as source text

Every node can be written as source text again: statements of a program one to a line, statements
of a block on the line of its braces.
-/

namespace Scriptlet

/-- A type as it stands after a name. -/
def typeMark : Option Text → Text
  | none => []
  | some t => utf8 ": " ++ t

/-- A name with its type. -/
def Identifier.render (id : Identifier) : Text := id.name ++ typeMark id.typeName

/-- The parameters of a function. -/
def renderParams (params : List Identifier) : Text :=
  utf8 "(" ++ Text.join (utf8 ", ") (params.map Identifier.render) ++ utf8 ")"

mutual

/-- An expression as source text. -/
def Expression.render : Expression → Text
  | .identifier id => id.render
  | .number _ _ raw => raw
  | .string _ _ raw => raw
  | .call _ callee arguments =>
    callee.name ++ utf8 "(" ++ Text.join (utf8 ", ") (Expression.renderAll arguments) ++ utf8 ")"

/-- Expressions as source text. -/
def Expression.renderAll : List Expression → List Text
  | [] => []
  | e :: es => e.render :: Expression.renderAll es

end

/-- The statements between braces, from how each is written. -/
def renderBlock (body : List Text) : Text :=
  if body.isEmpty then utf8 "\x7b\x7d"
  else utf8 "\x7b " ++ Text.join (utf8 " ") body ++ utf8 " \x7d"

/-- What ends a statement in a list: a semicolon, but nothing after the body of a function. -/
def Statement.terminator : Statement → Text
  | .definition _ _ _ _ _ _ => []
  | _ => utf8 ";"

mutual

/-- A statement as source text, without the semicolon that may end it. -/
def Statement.render : Statement → Text
  | .declaration _ id params returnType =>
    utf8 "declare function " ++ id.name ++ renderParams params ++ utf8 ": " ++ returnType.getD []
  | .definition _ id params returnType _ body =>
    utf8 "function " ++ id.name ++ renderParams params ++ typeMark returnType ++ utf8 " "
      ++ renderBlock (Statement.renderAll body)
  | .constant _ id value => utf8 "const " ++ id.render ++ utf8 " = " ++ value.render
  | .return _ none => utf8 "return"
  | .return _ (some e) => utf8 "return " ++ e.render
  | .expression e => e.render
  | .block _ body => renderBlock (Statement.renderAll body)

/-- Statements as elements of a list. -/
def Statement.renderAll : List Statement → List Text
  | [] => []
  | s :: rest => (s.render ++ s.terminator) :: Statement.renderAll rest

end

/-- A statement as an element of a list. -/
def Statement.renderElement (s : Statement) : Text := s.render ++ s.terminator

/-- A program as source text. -/
def Program.render (p : Program) : Text :=
  Text.join [Text.lineFeed] (p.body.map Statement.renderElement)

/-- A node as source text. -/
def Node.render : Node → Text
  | program p => p.render
  | statement s => s.render

end Scriptlet
