import Scriptlet.Failure
import Scriptlet.Parsed
import Scriptlet.Token.Cursor

/-!
# Steps of the parser

The parser reads from the front of a list of tokens and hands on the tokens that are left, which are
always fewer; so a list of anything is read by recursion on how many tokens are left. A step that
cannot go on fails with what it expected there. When the tokens are used up, the ending of the run
decides what the failure is.
-/

namespace Scriptlet

/-- A step of the parser: it reads a value from the front of a list of tokens, or fails. -/
abbrev Step (α : Type) := (ts : List Token) → Except Failure (Parsed α ts)

/-- What the whole parse knows: how the tokens end, and the limit on nesting. -/
structure Scope where
  /-- What comes after the last token. -/
  ending : Ending
  /-- How deeply blocks and calls may be nested. -/
  limit : Nat

namespace Scope

variable (sc : Scope)

/-- The failure with cause `c` at the first token, or at the end of the text. A character that
starts no token goes first: it is in the way of any token. -/
def failAt (onToken : Token → Cause) (onEnd : Cause) : List Token → Failure
  | t :: _ => ⟨t.start, onToken t⟩
  | [] =>
    match sc.ending with
    | .complete o => ⟨o, onEnd⟩
    | .unreadable u => ⟨u.offset, .unexpectedCharacter u.character⟩

/-- The failure of expecting `x` here. -/
def unexpected (x : Expectation) (ts : List Token) : Failure :=
  sc.failAt (.unexpectedToken x) (.unexpectedEnd x) ts

/-- The failure of going one level deeper here. -/
def tooDeep (ts : List Token) : Failure :=
  sc.failAt (fun _ => .tooDeep sc.limit) (.tooDeep sc.limit) ts

/-- A token of the kind `k`. -/
def expect (k : Kind) : Step Token
  | t :: rest =>
    if t.kind = k then .ok ⟨t, rest, by simp⟩ else .error (sc.unexpected (.kind k) (t :: rest))
  | [] => .error (sc.unexpected (.kind k) [])

/-- Values divided by commas, at least one. -/
def commaList {α : Type} (p : Step α) : Step (List α) := fun ts =>
  match p ts with
  | .error f => .error f
  | .ok ⟨a, t :: rest, h⟩ =>
    if t.kind = .comma then
      match commaList p rest with
      | .error f => .error f
      | .ok ⟨as, rest', h'⟩ => .ok ⟨a :: as, rest', by simp at h; omega⟩
    else .ok ⟨[a], t :: rest, h⟩
  | .ok ⟨a, [], h⟩ => .ok ⟨[a], [], h⟩
termination_by ts => ts.length
decreasing_by simp at h; omega

/-- Values up to a closing brace, and that brace. -/
def untilBrace {α : Type} (p : Step α) : Step (List α × Token)
  | [] => .error (sc.unexpected (.kind .closeBrace) [])
  | t :: rest =>
    if t.kind = .closeBrace then .ok ⟨([], t), rest, by simp⟩
    else
      match p (t :: rest) with
      | .error f => .error f
      | .ok ⟨a, rest, h⟩ =>
        match untilBrace p rest with
        | .error f => .error f
        | .ok ⟨(as, close), rest', h'⟩ => .ok ⟨(a :: as, close), rest', by omega⟩
termination_by ts => ts.length
decreasing_by assumption

/-- Values up to the end of the text. -/
def untilEnd {α : Type} (p : Step α) : List Token → Except Failure (List α)
  | [] =>
    match sc.ending with
    | .complete _ => .ok []
    | .unreadable u => .error ⟨u.offset, .unexpectedCharacter u.character⟩
  | t :: rest =>
    match p (t :: rest) with
    | .error f => .error f
    | .ok ⟨a, rest, _⟩ =>
      match untilEnd p rest with
      | .error f => .error f
      | .ok as => .ok (a :: as)
termination_by ts => ts.length
decreasing_by assumption

end Scope

end Scriptlet
