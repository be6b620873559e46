import Mathlib.Data.List.DropRight
import Scriptlet.Proofs.Source

/-!
# Positions

A position is found by halving in the line index. It is what a plain count from the front of the
text gives: the line feeds before the offset, and the runes behind the last of them
(`position_length`). A text in front of the line of an offset moves its position and nothing else,
so only the first line has to be counted out (`position_of_notMem`).
-/

namespace Scriptlet

/-! ### The last line of a text -/

namespace Text

/-- What stands behind the last line feed of a text; all of it if there is none. -/
def lastLine (t : Text) : Text := t.rtakeWhile (· != lineFeed)

theorem lastLine_of_notMem {t : Text} (h : lineFeed ∉ t) : t.lastLine = t := by
  rw [lastLine, List.rtakeWhile_eq_self_iff]
  intro b hb
  simpa using ne_of_mem_of_not_mem hb h

theorem notMem_lastLine (t : Text) : lineFeed ∉ t.lastLine := by
  intro h
  have := List.mem_rtakeWhile_imp h
  simp at this

/-- The last line goes on as long as there is no line feed. -/
theorem lastLine_append {w : Text} (hw : lineFeed ∉ w) (t : Text) :
    lastLine (t ++ w) = t.lastLine ++ w := by
  induction w using List.reverseRecOn with
  | nil => simp
  | append_singleton w b ih =>
    rw [List.mem_append, List.mem_singleton, not_or] at hw
    rw [← List.append_assoc, lastLine,
      List.rtakeWhile_concat_pos _ _ _ (by simpa using Ne.symm hw.2), ← lastLine, ih hw.1,
      List.append_assoc]

theorem lastLine_concat_lineFeed (t : Text) : lastLine (t ++ [lineFeed]) = [] :=
  List.rtakeWhile_concat_neg _ _ _ (by simp)

/-- A text with a line feed has one right before its last line. -/
theorem exists_append_lastLine {t : Text} (h : lineFeed ∈ t) :
    ∃ a, t = a ++ lineFeed :: t.lastLine := by
  induction t using List.reverseRecOn with
  | nil => cases h
  | append_singleton t b ih =>
    by_cases hb : b = lineFeed
    · subst hb
      exact ⟨t, by rw [lastLine_concat_lineFeed]⟩
    · have hb' : lineFeed ∉ [b] := by simpa using Ne.symm hb
      have ht : lineFeed ∈ t := by
        rcases List.mem_append.1 h with ht | hlast
        · exact ht
        · exact absurd hlast hb'
      obtain ⟨a, ha⟩ := ih ht
      refine ⟨a, ?_⟩
      rw [lastLine_append hb']
      nth_rewrite 1 [ha]
      rw [List.append_assoc, List.cons_append]

end Text

namespace Source

/-! ### Counting -/

/-- Behind a text without line feeds, all lines but the first start further on. -/
theorem splits_of_notMem {a : Text} (ha : Text.lineFeed ∉ a) (b : Text) :
    Splits (lineStarts (a ++ b)) a.length 1 1 := by
  have hstarts : startsAfter 0 (a ++ b) = startsAfter (0 + a.length) b := by
    have hnone : startsAfter 0 a = [] := by
      rw [← List.length_eq_zero_iff, length_startsAfter, List.count_eq_zero]
      exact ha
    rw [startsAfter_append, hnone, List.nil_append]
  constructor
  · intro i hi
    obtain rfl : i = 0 := by omega
    rw [getD_lineStarts_zero]
    exact Nat.zero_le _
  · intro i hi hsize
    obtain ⟨j, rfl⟩ := Nat.exists_eq_add_of_le' hi
    have hj : j < (startsAfter (0 + a.length) b).length := by
      simpa [lineStarts, hstarts] using hsize
    rw [getD_lineStarts, List.getD_cons_succ, hstarts, List.getD_eq_getElem _ _ hj]
    simpa using (mem_startsAfter (List.getElem_mem hj)).1

/-- On the first line, the column counts the runes before the offset. -/
theorem position_of_notMem (name : Text) {a : Text} (ha : Text.lineFeed ∉ a) (b : Text) :
    position ⟨name, a ++ b⟩ a.length = ⟨name, 1, (Text.runes a).length + 1, a.length⟩ := by
  have hclamp : clamp ⟨name, a ++ b⟩ a.length = a.length := by
    simp [clamp, size]
  have hone : firstBeyond (lineStarts (a ++ b)) a.length 0 (lineStarts (a ++ b)).size = 1 :=
    firstBeyond_eq_of_splits (splits_of_notMem ha b) (by rw [size_lineStarts]; omega)
  simp only [position, positionIn, starts, hclamp, hone, getD_lineStarts_zero, Text.runeCount_eq,
    Nat.sub_self, List.drop_zero, Nat.sub_zero, List.take_left]

/-- **Positions are counted**: the line feeds before the offset, and the runes behind the last of
them. -/
theorem position_length (name a b : Text) :
    position ⟨name, a ++ b⟩ a.length =
      ⟨name, a.count Text.lineFeed + 1, (Text.runes a.lastLine).length + 1, a.length⟩ := by
  by_cases h : Text.lineFeed ∈ a
  · -- what stands before the last line is a text in front of it
    obtain ⟨c, hc⟩ := Text.exists_append_lastLine h
    have hline := Text.notMem_lastLine a
    generalize a.lastLine = l at hc hline
    subst hc
    have hfront := position_append name c (l ++ b) l.length
    rw [position_of_notMem name hline b, Position.shift] at hfront
    rw [List.append_assoc, List.cons_append, List.length_append, List.length_cons,
      Nat.add_left_comm c.length, hfront, List.count_append, List.count_cons_self,
      List.count_eq_zero_of_not_mem hline]
    congr 1
    dsimp only
    omega
  · rw [position_of_notMem name h, List.count_eq_zero_of_not_mem h, Text.lastLine_of_notMem h]

/-- The position of any offset is that of the place in the text to which it is moved. -/
theorem position_eq (s : Source) (offset : Int) :
    s.position offset =
      { file := s.name
        line := (s.text.take (s.clamp offset)).count Text.lineFeed + 1
        column := (Text.runes (Text.lastLine (s.text.take (s.clamp offset)))).length + 1
        offset := s.clamp offset } := by
  have hle : s.clamp offset ≤ s.text.length := Nat.min_le_right _ _
  have hclamp : s.clamp (s.clamp offset : Nat) = s.clamp offset := Nat.min_eq_left hle
  have hcount := position_length s.name (s.text.take (s.clamp offset))
    (s.text.drop (s.clamp offset))
  rw [List.take_append_drop, List.length_take_of_le hle] at hcount
  rw [← hcount]
  simp only [position, positionIn, hclamp]

/-- **A position is a plain count.** An offset outside the text counts as the nearer end. The line
is one more than the number of line feeds before the offset, the column one more than the number of
runes behind the last of them; the line that halving finds is one of the index and does not start
behind the offset. -/
theorem position_counts (s : Source) (offset : Int) :
    let o := (max 0 (min offset s.text.length)).toNat
    let i : Int := firstBeyond s.starts o 0 s.starts.size - 1
    s.position offset =
        { file := s.name
          line := (s.text.take o).count Text.lineFeed + 1
          column := (Text.runes (Text.lastLine (s.text.take o))).length + 1
          offset := o } ∧
      0 ≤ i ∧ i < s.starts.size ∧ s.starts.getD i.toNat 0 ≤ o := by
  intro o i
  have ho : s.clamp offset = o := by
    simp only [o, clamp, size]
    omega
  obtain ⟨hsize, hsplits⟩ := splits_firstBeyond_lineStarts s.text o
  have hpos := firstBeyond_pos s.text o
  have hi : i = (firstBeyond (lineStarts s.text) o 0 (lineStarts s.text).size - 1 : Nat) := by
    simp only [i, starts]
    omega
  refine ⟨?_, ?_, ?_, ?_⟩
  · rw [position_eq, ho]
  · omega
  · rw [hi, starts]
    omega
  · rw [hi, Int.toNat_natCast]
    exact hsplits.le _ (by omega)

/-- Within a character the first bytes count as runes of their own, so the column need not grow. -/
example : ([-5, 3, 4, 99].map fun o : Int =>
    let p := position ⟨[], utf8 "a\né\n"⟩ o
    (p.line, p.column, p.offset)) = [(1, 1, 0), (2, 2, 3), (2, 2, 4), (3, 1, 5)] := by
  decide +kernel

end Source

end Scriptlet
