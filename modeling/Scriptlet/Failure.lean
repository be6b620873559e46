import Scriptlet.Source
import Scriptlet.Text.Quoted
import Scriptlet.Token

/-!
# Failures

Why a text is no program, and where: a character starts no token, a token or the end of the text
stands where something else is needed, or blocks and calls are nested too deeply. A failure knows
its offset; the source tells line, column and the line to quote.
-/

namespace Scriptlet

/-- What should have stood at some place. -/
inductive Expectation where
  /-- A token of a kind. -/
  | kind (k : Kind)
  /-- Any statement. -/
  | statement
  /-- Any expression. -/
  | expression
  deriving DecidableEq

/-- What was expected, in words. -/
def Expectation.text : Expectation → Text
  | kind k => k.name
  | statement => utf8 "statement"
  | expression => utf8 "expression"

/-- Why a text is no program. -/
inductive Cause where
  /-- A character starts no token. -/
  | unexpectedCharacter (character : Text)
  /-- A token does not fit. -/
  | unexpectedToken (expected : Expectation) (got : Token)
  /-- The text ends too early. -/
  | unexpectedEnd (expected : Expectation)
  /-- Blocks and calls are nested deeper than the limit. -/
  | tooDeep (limit : Nat)
  deriving DecidableEq

/-- A cause with its place. -/
structure Failure where
  /-- Where it is. -/
  offset : Nat
  /-- What it is. -/
  cause : Cause
  deriving DecidableEq

/-- What is wrong, in words. -/
def Cause.text : Cause → Text
  | unexpectedCharacter c => utf8 "unexpected character " ++ Text.quoted c
  | unexpectedToken x t =>
    utf8 "unexpected token: expected " ++ x.text ++ utf8 ", got " ++ t.kind.name ++ utf8 " ("
      ++ Text.quoted t.text ++ utf8 ")"
  | unexpectedEnd x => utf8 "unexpected end of input, expected " ++ x.text
  | tooDeep n => utf8 "nesting exceeds the maximum depth of " ++ Text.ofNat n

namespace Failure

/-- The position of a failure in its source. -/
def position (f : Failure) (s : Source) : Position := s.position f.offset

/-- The line of a failure with a caret below it. -/
def context (f : Failure) (s : Source) : Text := s.context f.offset

/-- The message of a failure: position and cause, and the quoted line, moved right. -/
def message (f : Failure) (s : Source) : Text :=
  (f.position s).text ++ utf8 ": " ++ f.cause.text ++ [Text.lineFeed] ++ Text.indent (f.context s)

end Failure

end Scriptlet
