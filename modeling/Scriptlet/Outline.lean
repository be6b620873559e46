import Scriptlet.Text

/-!
# Outlines

Nested records and lists, written field by field with one to a line, each with its type before it.
-/

namespace Scriptlet

/-- A value to be written out. -/
inductive Outline where
  /-- A value on one line, its type included. -/
  | leaf (text : Text)
  /-- A record: what stands before its opening brace and after its closing brace, and its fields. -/
  | record (before after : Text) (fields : List (Text × Outline))
  /-- A list that is not empty: its type, and its elements. -/
  | sequence (type : Text) (elements : List Outline)

namespace Outline

/-- The blanks before a line at the given depth. -/
def margin (depth : Nat) : Text := List.replicate (2 * depth) Text.space

/-- What stands between two items at the given depth. -/
def divider (depth : Nat) : Text := utf8 ",\n" ++ margin depth

/-- What stands before the first of the items at the given depth. -/
def opening (depth : Nat) : Text := utf8 "\x7b\n" ++ margin depth

/-- What stands after the last item of something at the given depth. -/
def closing (depth : Nat) : Text := utf8 "\n" ++ margin depth ++ utf8 "\x7d"

mutual

/-- The text of an outline at the given depth, and then `rest`. -/
def renderThen (depth : Nat) : Outline → (rest : Text) → Text
  | leaf t, rest => t ++ rest
  | record before after [], rest =>
    before ++ opening (depth + 1) ++ closing depth ++ after ++ rest
  | record before after ((name, v) :: fields), rest =>
    before ++ opening (depth + 1) ++ name ++ utf8 ": "
      ++ v.renderThen (depth + 1)
        (renderFields (depth + 1) fields (closing depth ++ after ++ rest))
  | sequence type elements, rest =>
    type ++ utf8 " (len=" ++ Text.ofNat elements.length ++ utf8 ") "
      ++ match elements with
        | [] => opening (depth + 1) ++ closing depth ++ rest
        | v :: more =>
          opening (depth + 1)
            ++ v.renderThen (depth + 1) (renderMore (depth + 1) more (closing depth ++ rest))

/-- Further fields of a record at the given depth, and then `rest`. -/
def renderFields (depth : Nat) : List (Text × Outline) → (rest : Text) → Text
  | [], rest => rest
  | (name, v) :: fields, rest =>
    divider depth ++ name ++ utf8 ": " ++ v.renderThen depth (renderFields depth fields rest)

/-- Further elements of a list at the given depth, and then `rest`. -/
def renderMore (depth : Nat) : List Outline → (rest : Text) → Text
  | [], rest => rest
  | v :: more, rest => divider depth ++ v.renderThen depth (renderMore depth more rest)

end

/-- The text of an outline at the given depth. -/
def render (depth : Nat) (v : Outline) : Text := v.renderThen depth []

end Outline

end Scriptlet
