import Scriptlet.Number.Decimal
import Scriptlet.Parse.Step
import Scriptlet.Tree

/-!
# Parsing

From tokens to programs, by the grammar

    Program     = { Statement }
    Block       = "{" { Statement } "}"
    Statement   = Declaration ";" | Definition | Constant ";" | Return ";" | Expression ";"
    Declaration = "declare" "function" Name Parameters Type
    Definition  = "function" Name Parameters [ Type ] Block
    Constant    = "const" Name [ Type ] "=" Expression
    Return      = "return" [ Expression ]
    Parameters  = "(" [ Name [ Type ] { "," Name [ Type ] } ] ")"
    Type        = ":" Name
    Expression  = Name Arguments | Name | Number | String
    Arguments   = "(" Expression { "," Expression } ")"

One token decides what comes next, but for a call, which takes a name and the parenthesis after it.
Blocks and arguments count as a level of nesting each. `budget` is how many more levels may be
opened; it is used up before the opening token is looked at, and recursion is on it.
-/

namespace Scriptlet

/-- Is the first token of the kind `k`? -/
def startsWithKind (k : Kind) : List Token → Bool
  | t :: _ => t.kind = k
  | [] => false

/-- The bytes of a token. -/
def Token.span (t : Token) : Span := ⟨t.start, t.stop⟩

namespace Scope

variable (sc : Scope)

/-! ### Names and types -/

/-- A name without a type. -/
def name : Step Identifier := fun ts => do
  let t ← sc.expect .identifier ts
  return ⟨⟨t.value.span, t.value.text, none⟩, t.rest, t.shorter⟩

/-- A colon and the name of a type. -/
def type : Step Token := fun ts => do
  let c ← sc.expect .colon ts
  let t ← sc.expect .identifier c.rest
  return ⟨t.value, t.rest, Nat.lt_trans t.shorter c.shorter⟩

/-- A name with a type or without. -/
def typedName : Step Identifier := fun ts => do
  let id ← sc.name ts
  if startsWithKind .colon id.rest then
    let t ← sc.type id.rest
    return ⟨{ id.value with typeName := some t.value.text }, t.rest,
      Nat.lt_trans t.shorter id.shorter⟩
  else return id

/-- The parameters of a function, possibly none. -/
def parameters : Step (List Identifier) := fun ts => do
  let o ← sc.expect .openParen ts
  if startsWithKind .closeParen o.rest then
    let c ← sc.expect .closeParen o.rest
    return ⟨[], c.rest, Nat.lt_trans c.shorter o.shorter⟩
  else
    let l ← commaList sc.typedName o.rest
    let c ← sc.expect .closeParen l.rest
    return ⟨l.value, c.rest, Nat.lt_trans c.shorter (Nat.lt_trans l.shorter o.shorter)⟩

/-! ### Expressions -/

/-- The arguments of a call, from how an argument is read, and the closing parenthesis. -/
def arguments (argument : Step Expression) : Step (List Expression × Token) := fun ts => do
  let o ← sc.expect .openParen ts
  let l ← commaList argument o.rest
  let c ← sc.expect .closeParen l.rest
  return ⟨(l.value, c.value), c.rest, Nat.lt_trans c.shorter (Nat.lt_trans l.shorter o.shorter)⟩

/-- An expression, from how the arguments of a call are read. -/
def expressionWith (args : Step (List Expression × Token)) : Step Expression
  | [] => .error (sc.unexpected .expression [])
  | t :: rest =>
    match t.kind with
    | .identifier => do
      let id : Identifier := ⟨t.span, t.text, none⟩
      if startsWithKind .openParen rest then
        let a ← args rest
        return ⟨.call ⟨t.start, a.value.2.stop⟩ id a.value.1, a.rest, Nat.lt_succ_of_lt a.shorter⟩
      else return ⟨.identifier id, rest, Nat.lt_succ_self _⟩
    | .number =>
      .ok ⟨.number t.span (Binary64.ofDigits t.text) t.text, rest, Nat.lt_succ_self _⟩
    | .string =>
      .ok ⟨.string t.span (t.text.drop 1).dropLast t.text, rest, Nat.lt_succ_self _⟩
    | _ => .error (sc.unexpected .expression (t :: rest))

/-- An expression in which calls may be nested `budget` deep. -/
def expression : (budget : Nat) → Step Expression
  | 0 => sc.expressionWith fun ts => .error (sc.tooDeep ts)
  | budget + 1 => sc.expressionWith (sc.arguments (expression budget))

/-! ### Statements -/

/-- A function without a body. -/
def declaration : Step Statement := fun ts => do
  let d ← sc.expect .declare ts
  let f ← sc.expect .function d.rest
  let id ← sc.name f.rest
  let ps ← sc.parameters id.rest
  let t ← sc.type ps.rest
  return ⟨.declaration ⟨d.value.start, t.value.stop⟩ id.value ps.value (some t.value.text), t.rest,
    by have := d.shorter; have := f.shorter; have := id.shorter; have := ps.shorter
       have := t.shorter; omega⟩

/-- The statements between braces, from how a statement is read, with the bytes of the block. -/
def block (statement : Step Statement) : Step (Span × List Statement) := fun ts => do
  let o ← sc.expect .openBrace ts
  let b ← sc.untilBrace statement o.rest
  return ⟨(⟨o.value.start, b.value.2.stop⟩, b.value.1), b.rest, Nat.lt_trans b.shorter o.shorter⟩

/-- A function with a body, from how a block is read. -/
def definition (body : Step (Span × List Statement)) : Step Statement := fun ts => do
  let f ← sc.expect .function ts
  let id ← sc.name f.rest
  let ps ← sc.parameters id.rest
  if startsWithKind .colon ps.rest then
    let t ← sc.type ps.rest
    let b ← body t.rest
    return ⟨.definition ⟨f.value.start, b.value.1.stop⟩ id.value ps.value (some t.value.text)
      b.value.1 b.value.2, b.rest,
      by have := f.shorter; have := id.shorter; have := ps.shorter; have := t.shorter
         have := b.shorter; omega⟩
  else
    let b ← body ps.rest
    return ⟨.definition ⟨f.value.start, b.value.1.stop⟩ id.value ps.value none
      b.value.1 b.value.2, b.rest,
      by have := f.shorter; have := id.shorter; have := ps.shorter; have := b.shorter; omega⟩

/-- A constant, from how an expression is read. -/
def constant (expr : Step Expression) : Step Statement := fun ts => do
  let k ← sc.expect .const ts
  let id ← sc.typedName k.rest
  let a ← sc.expect .assign id.rest
  let e ← expr a.rest
  return ⟨.constant ⟨k.value.start, e.value.span.stop⟩ id.value e.value, e.rest,
    by have := k.shorter; have := id.shorter; have := a.shorter; have := e.shorter; omega⟩

/-- The end of a function, from how an expression is read. -/
def returning (expr : Step Expression) : Step Statement := fun ts => do
  let k ← sc.expect .return ts
  if k.rest.isEmpty || startsWithKind .semicolon k.rest then
    return ⟨.return k.value.span none, k.rest, k.shorter⟩
  else
    let e ← expr k.rest
    return ⟨.return ⟨k.value.start, e.value.span.stop⟩ (some e.value), e.rest,
      Nat.lt_trans e.shorter k.shorter⟩

/-- A statement and the semicolon after it. -/
def terminated (p : Step Statement) : Step Statement := fun ts => do
  let s ← p ts
  let c ← sc.expect .semicolon s.rest
  return ⟨s.value, c.rest, Nat.lt_trans c.shorter s.shorter⟩

/-- An expression as a statement. -/
def expressionStatement (expr : Step Expression) : Step Statement := fun ts => do
  let e ← expr ts
  return ⟨.expression e.value, e.rest, e.shorter⟩

/-- A statement, from how an expression and a block are read. -/
def statementWith (expr : Step Expression) (body : Step (Span × List Statement)) : Step Statement
  | [] => .error (sc.unexpected .statement [])
  | t :: rest =>
    match t.kind with
    | .function => sc.definition body (t :: rest)
    | .declare => sc.terminated sc.declaration (t :: rest)
    | .const => sc.terminated (sc.constant expr) (t :: rest)
    | .return => sc.terminated (sc.returning expr) (t :: rest)
    | .identifier | .number | .string => sc.terminated (expressionStatement expr) (t :: rest)
    | _ => .error (sc.unexpected .statement (t :: rest))

/-- A statement in which blocks and calls may be nested `budget` deep. -/
def statement : (budget : Nat) → Step Statement
  | 0 => sc.statementWith (sc.expression 0) fun ts => .error (sc.tooDeep ts)
  | budget + 1 => sc.statementWith (sc.expression (budget + 1)) (sc.block (statement budget))

end Scope

/-- The limit on nesting where none is given. -/
def defaultMaxDepth : Nat := 256

/-- The limit on nesting that a number stands for: itself if it is positive. -/
def depthLimit (maxDepth : Int) : Nat := if maxDepth ≤ 0 then defaultMaxDepth else maxDepth.toNat

/-- The program of a text, with blocks and calls nested at most `maxDepth` deep. -/
def parse (maxDepth : Int) (t : Text) : Except Failure Program := do
  let run := tokenize t
  let sc : Scope := ⟨run.ending, depthLimit maxDepth⟩
  let body ← sc.untilEnd (sc.statement sc.limit) run.tokens
  return ⟨⟨0, t.length⟩, body⟩

end Scriptlet
