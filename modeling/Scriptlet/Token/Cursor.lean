import Scriptlet.Token.Rule

/-!
# Cursors

A cursor is a place in a text from which tokens are read, one at a time or all at once. What a
rule passes over before a token is gone once the token is read, also if there turns out to be none;
looking at the next token moves nothing. Reading all of a text gives a token run: its tokens, and
whether the end was reached or a character stood in the way that starts no token.
-/

namespace Scriptlet

/-- A character at which no rule accepts anything. -/
structure Unreadable where
  /-- Where it stands. -/
  offset : Nat
  /-- The character itself; `U+FFFD` for a malformed byte. -/
  character : Text
  deriving DecidableEq

/-- A place in a text. -/
structure Cursor where
  /-- How many bytes lie before it. -/
  offset : Nat
  /-- The bytes after it. -/
  rest : Text

namespace Cursor

/-- The cursor at the front of a text. -/
def start (t : Text) : Cursor := ⟨0, t⟩

/-- The cursor moved by `n` bytes. -/
def advance (c : Cursor) (n : Nat) : Cursor := ⟨c.offset + n, c.rest.drop n⟩

/-- The token made of the next `n` bytes. -/
def token (c : Cursor) (k : Kind) (n : Nat) : Token :=
  ⟨k, c.rest.take n, c.offset, c.offset + n⟩

/-- The token for the end of the text. -/
def endToken (c : Cursor) : Token := ⟨.endOfInput, [], c.offset, c.offset⟩

/-- The character at the cursor. -/
def character (c : Cursor) : Text :=
  match c.rest with
  | [] => []
  | b :: t => Rune.encode (Rune.read b t).code

end Cursor

/-- What is found at a cursor. -/
inductive Finding where
  /-- A token, and the place after it. -/
  | token (t : Token) (after : Cursor)
  /-- The end of the text. -/
  | ended (here : Cursor)
  /-- A character that starts no token. -/
  | stuck (here : Cursor)

namespace Cursor

variable (rules : List Rule)

/-- What is found at the cursor, after what is passed over. -/
def find : Cursor → Finding
  | ⟨o, []⟩ => .ended ⟨o, []⟩
  | ⟨o, b :: t⟩ =>
    match firstMatch? rules (b :: t) with
    | none => .stuck ⟨o, b :: t⟩
    | some ⟨none, n, _⟩ => find (advance ⟨o, b :: t⟩ n)
    | some ⟨some k, n, _⟩ => .token (token ⟨o, b :: t⟩ k n) (advance ⟨o, b :: t⟩ n)
termination_by c => c.rest.length
decreasing_by
  simp only [advance, List.length_drop, List.length_cons]
  omega

/-- A token leaves fewer bytes after it. -/
theorem find_shorter {c d : Cursor} {t : Token} (h : find rules c = .token t d) :
    d.rest.length < c.rest.length := by
  fun_induction find rules c with
  | case1 => cases h
  | case2 => cases h
  | case3 o b u n hn hm ih =>
    have := ih h
    simp only [advance, List.length_drop] at this ⊢
    omega
  | case4 o b u k n hn hm =>
    cases h
    simp only [advance, List.length_drop, List.length_cons]
    omega

/-- The next token, and the cursor moved past it. At the end of the text it is the token for the
end, however often it is asked for; where no rule accepts anything the cursor stays there. -/
def next (c : Cursor) : Except Unreadable Token × Cursor :=
  match find rules c with
  | .token t d => (.ok t, d)
  | .ended d => (.ok d.endToken, d)
  | .stuck d => (.error ⟨d.offset, d.character⟩, d)

/-- The next token, without moving. -/
def peek (c : Cursor) : Except Unreadable Token := (c.next rules).1

end Cursor

/-- How the reading of a text ends. -/
inductive Ending where
  /-- At the end of the text, which is at the given offset. -/
  | complete (offset : Nat)
  /-- At a character that starts no token. -/
  | unreadable (u : Unreadable)
  deriving DecidableEq

/-- The offset at which reading ends. -/
def Ending.offset : Ending → Nat
  | complete o => o
  | unreadable u => u.offset

/-- All that is read from a text. -/
structure TokenRun where
  /-- The tokens, without the one for the end. -/
  tokens : List Token
  /-- What comes after them. -/
  ending : Ending

/-- The tokens of a run, with the one for the end if the end was reached. -/
def TokenRun.all (r : TokenRun) : List Token :=
  match r.ending with
  | .complete o => r.tokens ++ [⟨.endOfInput, [], o, o⟩]
  | .unreadable _ => r.tokens

namespace Cursor

variable (rules : List Rule)

/-- All tokens from the cursor on. -/
def readAll (c : Cursor) : TokenRun × Cursor :=
  match _h : find rules c with
  | .token t d =>
    let (run, e) := readAll d
    ({ run with tokens := t :: run.tokens }, e)
  | .ended d => (⟨[], .complete d.offset⟩, d)
  | .stuck d => (⟨[], .unreadable ⟨d.offset, d.character⟩⟩, d)
termination_by c.rest.length
decreasing_by exact find_shorter rules _h

end Cursor

/-- The tokens of a text. -/
def tokenize (t : Text) : TokenRun := ((Cursor.start t).readAll Rule.table).1

end Scriptlet
