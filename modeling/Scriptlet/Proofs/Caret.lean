import Scriptlet.Proofs.Lines
import Scriptlet.Proofs.Position
import Scriptlet.Proofs.Utf8

/-!
# The caret under a line

The context of an offset is its line with a caret below. The column is counted in the text, and the
caret is set below the line without its carriage return; so the caret goes as far as the column
says, but not behind the end of the line. A tab stands under each tab of the line (`context_caret`).
-/

namespace Scriptlet

namespace Source

/-- The line of a position is one of the lines of the text. -/
theorem exists_line_position (s : Source) (offset : Int) :
    ∃ raw, (Text.lines s.text)[(s.position offset).line - 1]? = some raw ∧
      s.line (s.position offset).line = Text.dropEnd raw [Text.carriageReturn] := by
  have hline := congrArg Position.line (position_eq s offset)
  dsimp only at hline
  have hlt : (s.position offset).line - 1 < (Text.lines s.text).length := by
    have := (List.take_sublist (s.clamp offset) s.text).count_le Text.lineFeed
    rw [Text.length_lines]
    omega
  refine ⟨_, List.getElem?_eq_getElem hlt, ?_⟩
  have hsucc := line_succ s.name s.text ((s.position offset).line - 1)
  rw [List.getD_eq_getElem _ _ hlt, Nat.sub_add_cancel (by omega)] at hsucc
  exact hsucc

/-- A line that is shown has no line feed. -/
theorem notMem_line_position (s : Source) (offset : Int) :
    Text.lineFeed ∉ s.line (s.position offset).line := by
  obtain ⟨raw, hraw, hline⟩ := exists_line_position s offset
  rw [hline]
  exact Text.notMem_dropEnd (Text.notMem_of_mem_lines (List.mem_of_getElem? hraw))

theorem length_caretIndent (line : Text) (column : Nat) :
    (caretIndent line column).length = min (column - 1) (Text.runes line).length := by
  rw [caretIndent, List.length_map, List.length_take]

/-- Under each rune of the line stands a tab or a blank. -/
theorem getElem?_caretIndent {line : Text} {column i : Nat}
    (h : i < (caretIndent line column).length) : ∃ r w, (Text.runes line)[i]? = some (r, w) ∧
      (caretIndent line column)[i]? = some (if w = [Text.tab] then Text.tab else Text.space) := by
  rw [length_caretIndent] at h
  obtain ⟨⟨r, w⟩, hr⟩ : ∃ rune, (Text.runes line)[i]? = some rune :=
    ⟨_, List.getElem?_eq_getElem (by omega)⟩
  refine ⟨r, w, hr, ?_⟩
  have htab := Text.code_eq_iff_of_mem_runes (List.mem_of_getElem? hr) (b := Text.tab) (by decide)
  rw [caretIndent, List.getElem?_map, List.getElem?_take_of_lt (by omega), hr, Option.map_some,
    Option.some.injEq]
  by_cases hw : w = [Text.tab]
  · rw [if_pos hw, if_pos (htab.2 hw)]
  · rw [if_neg hw, if_neg fun hcode => hw (htab.1 hcode)]

/-- **The caret lines up.** The context of an offset is the line of its position and, below it, a
caret. Before the caret there are as many characters as the column says, or as the line has runes if
these are fewer: a tab under a tab, and a blank under any other rune. -/
theorem context_caret (s : Source) (offset : Int) :
    let p := s.position offset
    let line := s.line p.line
    Text.lineFeed ∉ line ∧
      (∃ raw, (Text.lines s.text)[p.line - 1]? = some raw ∧
        line = Text.dropEnd raw [Text.carriageReturn]) ∧
      ∃ indent, s.context offset = line ++ Text.lineFeed :: (indent ++ utf8 "^") ∧
        indent.length = min (p.column - 1) (Text.runes line).length ∧
        ∀ i < indent.length, ∃ r w, (Text.runes line)[i]? = some (r, w) ∧
          indent[i]? = some (if w = [Text.tab] then Text.tab else Text.space) := by
  intro p line
  refine ⟨notMem_line_position s offset, exists_line_position s offset, caretIndent line p.column,
    ?_, ?_, ?_⟩
  · simp [context, line, p]
  · exact length_caretIndent line p.column
  · intro i hi
    exact getElem?_caretIndent hi

/-- The caret stays under the end of the line if the column lies in what ends the line. -/
example : (context ⟨[], utf8 "x;\n\tab c\r\n"⟩ 7 = utf8 "\tab c\n\t   ^") ∧
    (context ⟨[], utf8 "x;\n\tab c\r\n"⟩ 9 = utf8 "\tab c\n\t    ^") := by decide +kernel

end Source

end Scriptlet
