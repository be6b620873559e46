import Scriptlet.Source
import Scriptlet.Table
import Scriptlet.Token

/-!
# Listings of tokens

The tokens of a source as a table: kind, text, offsets and position of each.
-/

namespace Scriptlet

/-- The row of a token, with its position from the line index `starts`. -/
def Token.row (s : Source) (starts : Array Nat) (t : Token) : List Text :=
  let p := s.positionIn starts t.start
  [t.kind.name, t.text, Text.ofNat t.start, Text.ofNat t.stop,
    Text.ofNat p.line ++ utf8 ":" ++ Text.ofNat p.column]

/-- The tokens of a source as a table. -/
def tokenListing (s : Source) (tokens : List Token) : Text :=
  let starts := s.starts
  Table.render
    { headings := [utf8 "KIND", utf8 "TEXT", utf8 "START", utf8 "END", utf8 "POSITION"]
      rows := tokens.map (Token.row s starts) }

end Scriptlet
