import Scriptlet.Json
import Scriptlet.Tree

/-!
# Programs as JSON

A node is an object with its type and its span, and then what it holds. A type that is not given
is left out; a return without a value has a null in its place. A node with a not-a-number in it is
not written, since JSON has no such value; nor is one whose lists and objects nest too deep.
-/

namespace Scriptlet

/-- The object of a node: its type and span, then its own fields. -/
def nodeObject (type : Text) (span : Span) (fields : List (Text × Json)) : Json :=
  .object ([(utf8 "type", .string type), (utf8 "start", .integer span.start),
    (utf8 "end", .integer span.stop)] ++ fields)

/-- A field for a type, if one is given. -/
def typeField (name : String) : Option Text → List (Text × Json)
  | none => []
  | some t => [(utf8 name, .string t)]

/-- A name as JSON. -/
def Identifier.toJson (id : Identifier) : Json :=
  nodeObject (utf8 "Identifier") id.span
    ((utf8 "name", .string id.name) :: typeField "valueType" id.typeName)

mutual

/-- An expression as JSON. -/
def Expression.toJson : Expression → Json
  | .identifier id => id.toJson
  | .number span value raw =>
    nodeObject (utf8 "NumericLiteral") span [(utf8 "value", .real value), (utf8 "raw", .string raw)]
  | .string span value raw =>
    nodeObject (utf8 "StringLiteral") span [(utf8 "value", .string value),
      (utf8 "raw", .string raw)]
  | .call span callee arguments =>
    nodeObject (utf8 "CallExpression") span
      [(utf8 "callee", callee.toJson),
        (utf8 "arguments", .array (Expression.toJsonAll arguments))]

/-- Expressions as JSON. -/
def Expression.toJsonAll : List Expression → List Json
  | [] => []
  | e :: es => e.toJson :: Expression.toJsonAll es

end

/-- The fields of the head of a function. -/
def signatureFields (id : Identifier) (params : List Identifier) (returnType : Option Text) :
    List (Text × Json) :=
  [(utf8 "id", id.toJson), (utf8 "params", .array (params.map Identifier.toJson))]
    ++ typeField "returnType" returnType

mutual

/-- A statement as JSON. -/
def Statement.toJson : Statement → Json
  | .declaration span id params returnType =>
    nodeObject (utf8 "FunctionDeclaration") span (signatureFields id params returnType)
  | .definition span id params returnType bodySpan body =>
    nodeObject (utf8 "FunctionDefinition") span (signatureFields id params returnType ++
      [(utf8 "body", nodeObject (utf8 "BlockStatement") bodySpan
        [(utf8 "body", .array (Statement.toJsonAll body))])])
  | .constant span id value =>
    nodeObject (utf8 "ConstantDefinition") span
      [(utf8 "id", id.toJson), (utf8 "value", value.toJson)]
  | .return span none => nodeObject (utf8 "ReturnStatement") span [(utf8 "argument", .null)]
  | .return span (some e) =>
    nodeObject (utf8 "ReturnStatement") span [(utf8 "argument", e.toJson)]
  | .expression e => e.toJson
  | .block span body =>
    nodeObject (utf8 "BlockStatement") span [(utf8 "body", .array (Statement.toJsonAll body))]

/-- Statements as JSON. -/
def Statement.toJsonAll : List Statement → List Json
  | [] => []
  | s :: rest => s.toJson :: Statement.toJsonAll rest

end

/-- A program as JSON. -/
def Program.toJson (p : Program) : Json :=
  nodeObject (utf8 "Program") p.span [(utf8 "body", .array (Statement.toJsonAll p.body))]

/-- A node as JSON. -/
def Node.toJson : Node → Json
  | program p => p.toJson
  | statement s => s.toJson

/-! ### What cannot be written -/

/-- Why the writer stops at a node. -/
inductive WriteFault where
  /-- JSON has no not-a-number. -/
  | notANumber
  /-- Too many lists and objects stand inside one another. -/
  | tooDeep
  deriving DecidableEq

/-- Why a node is not written as JSON, and where the writer stops. -/
structure Unwritable where
  /-- The types of the nodes on the way to where it stops, the outermost first. -/
  way : List Text
  /-- Why it stops. -/
  fault : WriteFault

/-- What is said of a fault. -/
def WriteFault.message : WriteFault → Text
  | notANumber => utf8 "json: unsupported value: NaN"
  | tooDeep => utf8 "exceeded max depth"

/-- The failure in words, which goes down node by node. -/
def Unwritable.message (u : Unwritable) : Text :=
  u.way.foldr (fun type rest =>
    utf8 "json: error calling MarshalJSON for type *ast." ++ type ++ utf8 ": " ++ rest)
    u.fault.message

/-- How deep the JSON of a node goes once it stands inside `around` lists and objects. A node is
written by itself first, and only then put where it belongs; so it is there that it may turn out too
deep. -/
def placed (type : Text) (around : Nat) : Except Unwritable Nat → Except Unwritable Nat
  | .error u => .error { u with way := type :: u.way }
  | .ok depth =>
    if around + depth ≤ Json.nestingLimit then .ok (around + depth) else .error ⟨[type], .tooDeep⟩

mutual

/-- How deep the JSON of an expression goes, or why it is not written. -/
def Expression.jsonDepth : Expression → Except Unwritable Nat
  | .identifier _ | .string _ _ _ => .ok 1
  | .number _ value _ => if value = .nan then .error ⟨[], .notANumber⟩ else .ok 1
  | .call _ _ arguments => Expression.jsonDepthIn arguments

/-- How deep an object goes that holds a list of expressions, or the first reason not to write
it. -/
def Expression.jsonDepthIn : List Expression → Except Unwritable Nat
  | [] => .ok 2
  | e :: es => do
    let depth ← placed e.typeName 2 e.jsonDepth
    return max depth (← Expression.jsonDepthIn es)

end

/-- How deep an object with the head of a function goes. -/
def signatureDepth (params : List Identifier) : Nat := if params.isEmpty then 2 else 3

mutual

/-- How deep the JSON of a statement goes, or why it is not written. -/
def Statement.jsonDepth : Statement → Except Unwritable Nat
  | .declaration _ _ params _ => .ok (signatureDepth params)
  | .definition _ _ params _ _ body =>
    (placed (utf8 "BlockStatement") 1 (Statement.jsonDepthIn body)).map
      (max (signatureDepth params))
  | .constant _ _ value => (placed value.typeName 1 value.jsonDepth).map (max 2)
  | .return _ none => .ok 1
  | .return _ (some e) => placed e.typeName 1 e.jsonDepth
  | .expression e => e.jsonDepth
  | .block _ body => Statement.jsonDepthIn body

/-- How deep an object goes that holds a list of statements, or the first reason not to write it. -/
def Statement.jsonDepthIn : List Statement → Except Unwritable Nat
  | [] => .ok 2
  | s :: rest => do
    let depth ← placed s.typeName 2 s.jsonDepth
    return max depth (← Statement.jsonDepthIn rest)

end

/-- How deep the JSON of a node goes, or why it is not written. -/
def Node.jsonDepth : Node → Except Unwritable Nat
  | program p => Statement.jsonDepthIn p.body
  | statement s => s.jsonDepth

/-- A node as JSON that can be written. -/
def Node.writable (n : Node) : Except Unwritable Json :=
  (placed n.typeName 0 n.jsonDepth).map fun _ => n.toJson

/-- A node written as JSON without blanks. -/
def Node.writeJson (n : Node) : Except Unwritable Text := n.writable.map Json.compact

end Scriptlet
