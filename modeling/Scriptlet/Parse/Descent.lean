import Scriptlet.Parse

/-!
# Parsing on a cursor

The parser of the grammar of `Scriptlet.Parse` that reads tokens as it needs them. Its state is the
current token, the cursor behind it, and how many blocks and calls are open. A token is taken by
reading the next one, so a character that starts no token is met as soon as the token in front of it
is taken; at a name the parser looks at the token behind it, without moving.

Each step leaves less to read, and recursion is on how much is left.
-/

namespace Scriptlet

/-- The failure of meeting a character that starts no token. -/
def Unreadable.failure (u : Unreadable) : Failure := ⟨u.offset, .unexpectedCharacter u.character⟩

/-- The state of a parser on a cursor. -/
structure Descent where
  /-- The current token. -/
  token : Token
  /-- The cursor behind it. -/
  cursor : Cursor
  /-- How many blocks and calls are open. -/
  depth : Nat

namespace Descent

/-- How much is left to read, the current token included. -/
def left (s : Descent) : Nat := if s.token.kind = .endOfInput then 0 else s.cursor.rest.length + 1

/-- A value and the state behind it, in which less is left. -/
structure Moved (α : Type) (s : Descent) where
  /-- The value. -/
  value : α
  /-- The state behind it. -/
  state : Descent
  /-- Something was read. -/
  less : state.left < s.left

/-! ### Tokens -/

theorem left_next {s : Descent} (h : s.token.kind ≠ .endOfInput) {t : Token} {d : Cursor}
    (hn : s.cursor.next Rule.table = (.ok t, d)) :
    left { s with token := t, cursor := d } < s.left := by
  rw [left, left, if_neg h]
  unfold Cursor.next at hn
  split at hn
  · rename_i t' d' hfind
    obtain ⟨ht, rfl⟩ := Prod.mk.inj hn
    have := Cursor.find_shorter Rule.table hfind
    dsimp only
    split <;> omega
  · rename_i d' hfind
    obtain ⟨ht, rfl⟩ := Prod.mk.inj hn
    obtain rfl := Except.ok.inj ht
    exact Nat.succ_pos _
  · cases hn

variable (limit : Nat) (s : Descent)

/-- The current token is taken, and the next one becomes the current one. -/
def advance (h : s.token.kind ≠ .endOfInput) : Except Failure (Moved Token s) :=
  match hn : s.cursor.next Rule.table with
  | (.error u, _) => .error u.failure
  | (.ok t, d) => .ok ⟨s.token, { s with token := t, cursor := d }, left_next h hn⟩

/-- The failure of expecting `x` here. -/
def unexpected (x : Expectation) : Failure :=
  if s.token.kind = .endOfInput then ⟨s.token.start, .unexpectedEnd x⟩
  else ⟨s.token.start, .unexpectedToken x s.token⟩

/-- A token of the kind `k`, which is not that of the end. -/
def expect (k : Kind) : Except Failure (Moved Token s) :=
  if h : s.token.kind = k ∧ k ≠ .endOfInput then s.advance (h.1 ▸ h.2)
    else .error (s.unexpected (.kind k))

/-- Is the token behind the current one of the kind `k`? -/
def peekIs (k : Kind) : Except Failure Bool :=
  match s.cursor.peek Rule.table with
  | .error u => .error u.failure
  | .ok t => .ok (t.kind = k)

/-! ### Levels -/

/-- Another level may be opened. -/
def enter : Except Failure Unit :=
  if limit ≤ s.depth then .error ⟨s.token.start, .tooDeep limit⟩ else .ok ()

/-- One more level is open. -/
def deeper : Descent := { s with depth := s.depth + 1 }

/-- One level less is open. -/
def leave : Descent := { s with depth := s.depth - 1 }

/-! ### Names and types -/

/-- A name without a type. -/
def name : Except Failure (Moved Identifier s) := do
  let t ← s.expect .identifier
  return ⟨⟨t.value.span, t.value.text, none⟩, t.state, t.less⟩

/-- A colon and the name of a type. -/
def type : Except Failure (Moved Token s) := do
  let c ← s.expect .colon
  let t ← c.state.expect .identifier
  return ⟨t.value, t.state, Nat.lt_trans t.less c.less⟩

/-- A name with a type or without. -/
def typedName : Except Failure (Moved Identifier s) := do
  let id ← s.name
  if id.state.token.kind = .colon then
    let t ← id.state.type
    return ⟨{ id.value with typeName := some t.value.text }, t.state, Nat.lt_trans t.less id.less⟩
  else return id

/-- Parameters divided by commas, at least one. -/
def parameterList (s : Descent) : Except Failure (Moved (List Identifier) s) := do
  let id ← s.typedName
  if id.state.token.kind = .comma then
    let c ← id.state.expect .comma
    have hless := Nat.lt_trans c.less id.less
    let l ← parameterList c.state
    return ⟨id.value :: l.value, l.state, Nat.lt_trans l.less hless⟩
  else return ⟨[id.value], id.state, id.less⟩
termination_by s.left
decreasing_by exact hless

/-- The parameters of a function, possibly none. -/
def parameters : Except Failure (Moved (List Identifier) s) := do
  let o ← s.expect .openParen
  if o.state.token.kind = .closeParen then
    let c ← o.state.expect .closeParen
    return ⟨[], c.state, Nat.lt_trans c.less o.less⟩
  else
    let l ← parameterList o.state
    let c ← l.state.expect .closeParen
    return ⟨l.value, c.state, Nat.lt_trans c.less (Nat.lt_trans l.less o.less)⟩

/-! ### Expressions -/

mutual

/-- An expression. -/
def expression (s : Descent) : Except Failure (Moved Expression s) := do
  match s.token.kind with
  | .identifier =>
    let isCall ← s.peekIs .openParen
    let id ← s.name
    if isCall then
      have hless := id.less
      let a ← arguments id.state
      return ⟨.call ⟨id.value.span.start, a.value.2.stop⟩ id.value a.value.1, a.state,
        Nat.lt_trans a.less hless⟩
    else return ⟨.identifier id.value, id.state, id.less⟩
  | .number =>
    let t ← s.expect .number
    return ⟨.number t.value.span (Binary64.ofDigits t.value.text) t.value.text, t.state, t.less⟩
  | .string =>
    let t ← s.expect .string
    return ⟨.string t.value.span (t.value.text.drop 1).dropLast t.value.text, t.state, t.less⟩
  | _ => .error (s.unexpected .expression)
termination_by (s.left, 0)
decreasing_by exact Prod.Lex.left _ _ hless

/-- The arguments of a call, one level deeper, and the closing parenthesis. -/
def arguments (s : Descent) : Except Failure (Moved (List Expression × Token) s) := do
  s.enter limit
  let o ← s.deeper.expect .openParen
  have hless : o.state.left < s.left := o.less
  let l ← argumentList o.state
  let c ← l.state.expect .closeParen
  return ⟨(l.value, c.value), c.state.leave, Nat.lt_trans c.less (Nat.lt_trans l.less hless)⟩
termination_by (s.left, 0)
decreasing_by exact Prod.Lex.left _ _ hless

/-- Arguments divided by commas, at least one. -/
def argumentList (s : Descent) : Except Failure (Moved (List Expression) s) := do
  let e ← expression s
  if e.state.token.kind = .comma then
    let c ← e.state.expect .comma
    have hless := Nat.lt_trans c.less e.less
    let l ← argumentList c.state
    return ⟨e.value :: l.value, l.state, Nat.lt_trans l.less hless⟩
  else return ⟨[e.value], e.state, e.less⟩
termination_by (s.left, 1)
decreasing_by
  · exact Prod.Lex.right _ Nat.one_pos
  · exact Prod.Lex.left _ _ hless

end

/-! ### Statements -/

/-- A function without a body. -/
def declaration : Except Failure (Moved Statement s) := do
  let d ← s.expect .declare
  let f ← d.state.expect .function
  let id ← f.state.name
  let ps ← id.state.parameters
  let t ← ps.state.type
  return ⟨.declaration ⟨d.value.start, t.value.stop⟩ id.value ps.value (some t.value.text), t.state,
    by have := d.less; have := f.less; have := id.less; have := ps.less; have := t.less; omega⟩

/-- A constant. -/
def constant : Except Failure (Moved Statement s) := do
  let k ← s.expect .const
  let id ← k.state.typedName
  let a ← id.state.expect .assign
  let e ← a.state.expression limit
  return ⟨.constant ⟨k.value.start, e.value.span.stop⟩ id.value e.value, e.state,
    by have := k.less; have := id.less; have := a.less; have := e.less; omega⟩

/-- The end of a function. -/
def returning : Except Failure (Moved Statement s) := do
  let k ← s.expect .return
  if k.state.token.kind = .semicolon ∨ k.state.token.kind = .endOfInput then
    return ⟨.return k.value.span none, k.state, k.less⟩
  else
    let e ← k.state.expression limit
    return ⟨.return ⟨k.value.start, e.value.span.stop⟩ (some e.value), e.state,
      Nat.lt_trans e.less k.less⟩

/-- An expression as a statement. -/
def expressionStatement : Except Failure (Moved Statement s) := do
  let e ← s.expression limit
  return ⟨.expression e.value, e.state, e.less⟩

/-- A statement with the semicolon behind it. -/
def Moved.terminated {s : Descent} (m : Moved Statement s) :
    Except Failure (Moved Statement s) := do
  let c ← m.state.expect .semicolon
  return ⟨m.value, c.state, Nat.lt_trans c.less m.less⟩

mutual

/-- A statement. -/
def statement (s : Descent) : Except Failure (Moved Statement s) := do
  match s.token.kind with
  | .function => definition s
  | .declare => (← s.declaration).terminated
  | .const => (← s.constant limit).terminated
  | .return => (← s.returning limit).terminated
  | .identifier | .number | .string => (← s.expressionStatement limit).terminated
  | _ => .error (s.unexpected .statement)
termination_by (s.left, 1)
decreasing_by exact Prod.Lex.right _ Nat.one_pos

/-- A function with a body. -/
def definition (s : Descent) : Except Failure (Moved Statement s) := do
  let f ← s.expect .function
  let id ← f.state.name
  let ps ← id.state.parameters
  have hps : ps.state.left < s.left := Nat.lt_trans ps.less (Nat.lt_trans id.less f.less)
  if ps.state.token.kind = .colon then
    let t ← ps.state.type
    have hless := Nat.lt_trans t.less hps
    let b ← block t.state
    return ⟨.definition ⟨f.value.start, b.value.1.stop⟩ id.value ps.value
      (some t.value.text) b.value.1 b.value.2, b.state, Nat.lt_trans b.less hless⟩
  else
    let b ← block ps.state
    return ⟨.definition ⟨f.value.start, b.value.1.stop⟩ id.value ps.value none b.value.1 b.value.2,
      b.state, Nat.lt_trans b.less hps⟩
termination_by (s.left, 0)
decreasing_by
  · exact Prod.Lex.left _ _ hless
  · exact Prod.Lex.left _ _ hps

/-- The statements between braces, one level deeper, with the bytes of the block. -/
def block (s : Descent) : Except Failure (Moved (Span × List Statement) s) := do
  s.enter limit
  let o ← s.deeper.expect .openBrace
  have hless : o.state.left < s.left := o.less
  let b ← body o.state
  return ⟨(⟨o.value.start, b.value.2.stop⟩, b.value.1), b.state.leave, Nat.lt_trans b.less hless⟩
termination_by (s.left, 0)
decreasing_by exact Prod.Lex.left _ _ hless

/-- Statements up to a closing brace, and that brace. -/
def body (s : Descent) : Except Failure (Moved (List Statement × Token) s) := do
  if s.token.kind = .closeBrace then
    let c ← s.expect .closeBrace
    return ⟨([], c.value), c.state, c.less⟩
  else if s.token.kind = .endOfInput then .error (s.unexpected (.kind .closeBrace))
  else
    let a ← statement s
    have hless := a.less
    let b ← body a.state
    return ⟨(a.value :: b.value.1, b.value.2), b.state, Nat.lt_trans b.less hless⟩
termination_by (s.left, 2)
decreasing_by
  · exact Prod.Lex.right _ (by omega)
  · exact Prod.Lex.left _ _ hless

end

/-- Statements up to the end of the text. -/
def statements (s : Descent) : Except Failure (List Statement) := do
  if s.token.kind = .endOfInput then return []
  else
    let a ← s.statement limit
    let as ← statements a.state
    return a.value :: as
termination_by s.left
decreasing_by exact a.less

end Descent

/-- The program of a text, read from a cursor, with blocks and calls nested at most `maxDepth`
deep. -/
def descend (maxDepth : Int) (t : Text) : Except Failure Program :=
  match (Cursor.start t).next Rule.table with
  | (.error u, _) => .error u.failure
  | (.ok first, d) => do
    let body ← Descent.statements (depthLimit maxDepth) ⟨first, d, 0⟩
    return ⟨⟨0, t.length⟩, body⟩

end Scriptlet
