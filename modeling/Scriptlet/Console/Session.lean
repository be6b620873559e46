import Scriptlet.Console
import Scriptlet.Text.Blank

/-!
# A console session

A session reads its input line by line, with a prompt before each line, until the input ends. A line
ends with a line feed, and a carriage return before it belongs to the end; lines that are too long
are taken in pieces, each as a line of its own.
-/

namespace Scriptlet.Console

/-- The most bytes that are taken as one line. -/
def lineLimit : Nat := 4096

/-- A line without the carriage return at its end. -/
def dropReturn (line : Text) : Text := if Text.endsWith line [13] then line.dropLast else line

/-- The first line of the input and what follows it; none if it is not known yet where the line
ends. A piece never ends with a carriage return, which may belong to the end of the line. -/
def takeLine? (input : Text) : Option (Text × Text) :=
  let line := (input.take lineLimit).takeWhile (· != Text.lineFeed)
  if line.length < (input.take lineLimit).length then
    some (dropReturn line, input.drop (line.length + 1))
  else if lineLimit ≤ input.length then
    some (dropReturn line, input.drop (dropReturn line).length)
  else none

/-- After a line there is less input than before. -/
theorem takeLine?_shorter {input line rest : Text} (h : takeLine? input = some (line, rest)) :
    rest.length < input.length := by
  have dropped : ∀ l : Text, l.length - 1 ≤ (dropReturn l).length := by
    intro l
    unfold dropReturn
    split <;> simp
  simp only [takeLine?] at h
  split at h
  · next shorter =>
    simp only [Option.some.injEq, Prod.mk.injEq] at h
    rw [← h.2, List.length_drop]
    simp only [List.length_take] at shorter
    omega
  · next whole =>
    split at h
    · next long =>
      simp only [Option.some.injEq, Prod.mk.injEq] at h
      rw [← h.2, List.length_drop]
      have := dropped ((input.take lineLimit).takeWhile (· != Text.lineFeed))
      simp only [List.length_take, lineLimit] at *
      omega
    · simp at h

/-- The lines of the whole input. What is left at its end is the last line. -/
def inputLines (input : Text) : List Text :=
  match _h : takeLine? input with
  | some (line, rest) => line :: inputLines rest
  | none => if input.isEmpty then [] else [input]
termination_by input.length
decreasing_by exact takeLine?_shorter _h

/-- What a session starts with. -/
def welcome : Text := utf8 "Welcome to the tsnc 0.1.0 parser console. Ctrl-D exits.\n"

/-- What is shown before a line is read. -/
def prompt (c : Console) : Text := if c.pending.isEmpty then utf8 "> " else utf8 "... "

/-- Takes a line of a session: a blank one, with nothing pending, is passed over. -/
def take (c : Console) (line : Text) : Reaction :=
  if c.pending.isEmpty && Text.isBlankText line then ⟨c, false, []⟩ else c.feed line

/-- What is printed while lines are taken, up to the end of the input. -/
def transcript (c : Console) : List Text → Text
  | [] => c.prompt ++ [Text.lineFeed]
  | line :: rest => let r := c.take line; c.prompt ++ r.out ++ r.console.transcript rest

/-- What a session prints, for all of its input. -/
def session (c : Console) (input : Text) : Text := welcome ++ c.transcript (inputLines input)

end Scriptlet.Console
