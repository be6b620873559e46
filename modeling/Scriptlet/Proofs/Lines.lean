import Scriptlet.Proofs.Source

/-!
# Lines of a text

The lines of a text are the pieces between its line feeds. Joined again they are the text
(`Text.join_lines`), none of them has a line feed, and what holds of a text on one line and of a
line in front of a text holds of all texts (`Text.lineInduction`). The lines that a source finds in
its line index are these pieces, without the carriage return at their end (`Source.line_succ`), and
each of them stands in the text where the index says that it starts (`lines_isPrefix_drop`).
-/

namespace Scriptlet

namespace Text

/-! ### Joining -/

theorem join_cons_cons (sep a b : Text) (parts : List Text) :
    join sep (a :: b :: parts) = a ++ (sep ++ join sep (b :: parts)) := by
  simp [join, List.intercalate]

theorem join_append {sep : UInt8} {parts rest : List Text} (hp : parts ≠ []) (hr : rest ≠ []) :
    join [sep] (parts ++ rest) = join [sep] parts ++ sep :: join [sep] rest := by
  obtain ⟨r, rest, rfl⟩ := List.exists_cons_of_ne_nil hr
  induction parts with
  | nil => exact absurd rfl hp
  | cons a parts ih =>
    cases parts with
    | nil =>
      rw [List.singleton_append, join_cons_cons]
      simp [join, List.intercalate]
    | cons b parts =>
      have hb := ih (List.cons_ne_nil b parts)
      rw [List.cons_append] at hb
      rw [List.cons_append, List.cons_append, join_cons_cons, hb, join_cons_cons]
      simp

/-! ### Splitting -/

theorem splitOn_eq (sep : UInt8) (t : Text) : splitOn sep t = List.splitOn sep t := by
  induction t with
  | nil => rw [splitOn, List.splitOn_nil]
  | cons b t ih =>
    rw [splitOn, List.splitOn_cons_eq_if_modifyHead, ih]
    by_cases hb : b = sep
    · rw [if_pos hb, if_pos (by simpa using hb)]
    · rw [if_neg hb, if_neg (by simpa using hb)]
      obtain ⟨piece, pieces, hsplit⟩ := List.exists_cons_of_ne_nil (List.splitOn_ne_nil sep t)
      rw [hsplit, List.modifyHead_cons]

theorem splitOn_ne_nil (sep : UInt8) (t : Text) : splitOn sep t ≠ [] := by
  rw [splitOn_eq]
  exact List.splitOn_ne_nil sep t

/-- A text is its pieces with the separator between them. -/
theorem join_splitOn (sep : UInt8) (t : Text) : join [sep] (splitOn sep t) = t := by
  rw [splitOn_eq]
  exact List.intercalate_splitOn sep

theorem splitOn_of_notMem {sep : UInt8} {t : Text} (h : sep ∉ t) : splitOn sep t = [t] := by
  rw [splitOn_eq]
  exact List.splitOn_eq_singleton h

theorem splitOn_append (sep : UInt8) (a b : Text) :
    splitOn sep (a ++ sep :: b) = splitOn sep a ++ splitOn sep b := by
  simp only [splitOn_eq]
  exact List.splitOn_append_cons_self a b

theorem notMem_of_mem_splitOn {sep : UInt8} {t piece : Text} (h : piece ∈ splitOn sep t) :
    sep ∉ piece := by
  induction t generalizing piece with
  | nil =>
    rw [List.mem_singleton.1 h]
    exact List.not_mem_nil
  | cons b t ih =>
    obtain ⟨first, pieces, hsplit⟩ := List.exists_cons_of_ne_nil (splitOn_ne_nil sep t)
    rw [splitOn] at h
    split_ifs at h with hb
    · rcases List.mem_cons.1 h with rfl | h
      · exact List.not_mem_nil
      · exact ih h
    · rw [hsplit] at h ih
      rcases List.mem_cons.1 h with rfl | h
      · exact List.not_mem_cons_of_ne_of_not_mem (Ne.symm hb) (ih List.mem_cons_self)
      · exact ih (List.mem_cons_of_mem first h)

theorem lines_ne_nil (t : Text) : lines t ≠ [] := splitOn_ne_nil lineFeed t

/-- A text is its lines with line feeds between them. -/
theorem join_lines (t : Text) : join [lineFeed] (lines t) = t := join_splitOn lineFeed t

theorem lines_of_notMem {t : Text} (h : lineFeed ∉ t) : lines t = [t] := splitOn_of_notMem h

theorem lines_append (a b : Text) : lines (a ++ lineFeed :: b) = lines a ++ lines b :=
  splitOn_append lineFeed a b

theorem notMem_of_mem_lines {t l : Text} (h : l ∈ lines t) : lineFeed ∉ l := notMem_of_mem_splitOn h

/-- Every text is built up from its last line, line by line. -/
@[elab_as_elim]
theorem lineInduction {motive : Text → Prop} (last : ∀ a, lineFeed ∉ a → motive a)
    (more : ∀ a b, lineFeed ∉ a → motive b → motive (a ++ lineFeed :: b)) (t : Text) :
    motive t := by
  induction h : t.length using Nat.strongRecOn generalizing t with
  | _ n ih =>
    by_cases ht : lineFeed ∈ t
    · obtain ⟨a, b, rfl, ha⟩ := List.eq_append_cons_of_mem ht
      rw [List.length_append, List.length_cons] at h
      exact more a b ha (ih b.length (by omega) b rfl)
    · exact last t ht

theorem length_lines (t : Text) : (lines t).length = t.count lineFeed + 1 := by
  induction t using lineInduction with
  | last a ha => rw [lines_of_notMem ha, List.count_eq_zero_of_not_mem ha, List.length_singleton]
  | more a b ha ih =>
    rw [lines_append, lines_of_notMem ha, List.singleton_append, List.length_cons, ih,
      List.count_append, List.count_eq_zero_of_not_mem ha, List.count_cons_self, Nat.zero_add]

theorem notMem_dropEnd {t w : Text} {b : UInt8} (h : b ∉ t) : b ∉ dropEnd t w := by
  rw [dropEnd]
  split
  · intro hb
    exact h (List.mem_of_mem_take hb)
  · exact h

/-- A text is what is left of it without a word at its end, and that word where it was left out. -/
theorem dropEnd_append_ite (t w : Text) :
    (if t.endsWith w then dropEnd t w ++ w else dropEnd t w) = t := by
  rw [dropEnd]
  split
  · rename_i h
    obtain ⟨a, rfl⟩ := List.isSuffixOf_iff_suffix.1 h
    rw [List.length_append, Nat.add_sub_cancel, List.take_left]
  · rfl

end Text

/-- Every line stands where the line index says that it starts. -/
theorem lines_isPrefix_drop (t : Text) {i : Nat} (hi : i < (Text.lines t).length) :
    (Text.lines t).getD i [] <+: t.drop ((lineStarts t).getD i 0) := by
  induction t using Text.lineInduction generalizing i with
  | last a ha =>
    rw [Text.lines_of_notMem ha] at hi ⊢
    obtain rfl : i = 0 := Nat.lt_one_iff.1 hi
    simp only [List.getD_cons_zero, getD_lineStarts_zero, List.drop_zero, List.prefix_rfl]
  | more a b ha ih =>
    rw [Text.lines_append, Text.lines_of_notMem ha, List.singleton_append] at hi ⊢
    cases i with
    | zero =>
      rw [List.getD_cons_zero, getD_lineStarts_zero, List.drop_zero]
      exact List.prefix_append a _
    | succ i =>
      have hi := Nat.lt_of_succ_lt_succ hi
      have hsize : i < (lineStarts b).size := by rwa [size_lineStarts, ← Text.length_lines]
      have hstart := getD_lineStarts_append_right a b hsize
      rw [size_lineStarts_of_notMem ha, Nat.add_comm 1] at hstart
      rw [List.getD_cons_succ, hstart, drop_append_lineFeed]
      exact ih hi

/-! ### The lines of a source -/

namespace Source

theorem line_first (name : Text) {a : Text} (ha : Text.lineFeed ∉ a) :
    line ⟨name, a⟩ (1 : Nat) = Text.dropEnd a [Text.carriageReturn] := by
  rw [line_eq name a Nat.one_pos, size_lineStarts_of_notMem ha, if_neg (Nat.lt_irrefl 1),
    if_neg (Nat.lt_irrefl 1), getD_lineStarts_zero, List.take_length, List.drop_zero]

theorem line_first_append (name : Text) {a : Text} (ha : Text.lineFeed ∉ a) (b : Text) :
    line ⟨name, a ++ Text.lineFeed :: b⟩ (1 : Nat) = Text.dropEnd a [Text.carriageReturn] := by
  have hmore : 0 < (lineStarts b).size := by
    rw [size_lineStarts]
    omega
  have hsecond := getD_lineStarts_append_right a b hmore
  rw [size_lineStarts_of_notMem ha, Nat.add_zero, getD_lineStarts_zero, Nat.zero_add] at hsecond
  rw [line_eq name _ Nat.one_pos, size_lineStarts_append, size_lineStarts_of_notMem ha,
    if_neg (by omega), if_pos (by omega), hsecond, Nat.add_sub_cancel, List.take_left,
    Nat.sub_self, getD_lineStarts_zero,
    List.drop_zero]

/-- **The lines of a source are the lines of its text**, without the carriage return at their
end. -/
theorem line_succ (name t : Text) (n : Nat) :
    line ⟨name, t⟩ (n + 1 : Nat) =
      Text.dropEnd ((Text.lines t).getD n []) [Text.carriageReturn] := by
  induction t using Text.lineInduction generalizing n with
  | last a ha =>
    rw [Text.lines_of_notMem ha]
    cases n with
    | zero => rw [List.getD_cons_zero, Nat.zero_add, line_first name ha]
    | succ n =>
      rw [line_eq name a (Nat.succ_pos _), if_pos]
      · rfl
      · rw [size_lineStarts_of_notMem ha]
        omega
  | more a b ha ih =>
    rw [Text.lines_append, Text.lines_of_notMem ha, List.singleton_append]
    cases n with
    | zero => rw [List.getD_cons_zero, Nat.zero_add, line_first_append name ha]
    | succ n =>
      have hbehind := line_append name a b (Nat.succ_pos n)
      rw [List.count_eq_zero_of_not_mem ha] at hbehind
      rw [List.getD_cons_succ, ← ih n]
      exact hbehind

variable (s : Source)

/-- The line with the given number, counted from one, as it stands between the line feeds. -/
def rawLine (n : Nat) : Text := (Text.lines s.text).getD (n - 1) []

theorem lineCount_eq : s.lineCount = (Text.lines s.text).length := by
  rw [Text.length_lines]
  exact size_lineStarts s.text

/-- A line as it stands in the text, from the line without its carriage return. -/
theorem rawLine_eq {n : Nat} (hn : 0 < n) :
    s.rawLine n = if (s.rawLine n).endsWith [Text.carriageReturn]
      then s.line n ++ [Text.carriageReturn]
      else s.line n := by
  obtain ⟨i, rfl⟩ := Nat.exists_eq_add_one.2 hn
  have hline : s.line (i + 1 : Nat) = Text.dropEnd (s.rawLine (i + 1)) [Text.carriageReturn] :=
    line_succ s.name s.text i
  rw [hline, Text.dropEnd_append_ite]

theorem map_rawLine : (List.range' 1 s.lineCount).map s.rawLine = Text.lines s.text := by
  rw [lineCount_eq]
  refine List.ext_getElem (by simp) fun i hi hi' => ?_
  rw [List.getElem_map, List.getElem_range', rawLine, Nat.one_mul, Nat.add_sub_cancel_left,
    List.getD_eq_getElem _ _ hi']

/-- **The line index is a faithful split of the text.** It is in increasing order, begins with zero,
and has besides exactly the offsets behind a line feed. The text is its lines with line feeds
between them, where each line has its carriage return again if it stands in the text with one. No
line has a line feed in it, and each stands in the text where the index says that it starts. -/
theorem starts_and_lines :
    (s.starts.toList.Pairwise (· < ·) ∧ s.starts[0]? = some 0 ∧
      ∀ o, o ∈ s.starts ↔ o = 0 ∨ ∃ i, s.text[i]? = some Text.lineFeed ∧ o = i + 1) ∧
    s.text = Text.join [Text.lineFeed] ((List.range' 1 s.lineCount).map fun n : Nat =>
      if (s.rawLine n).endsWith [Text.carriageReturn] then s.line n ++ [Text.carriageReturn]
        else s.line n) ∧
    ∀ n ∈ List.range' 1 s.lineCount,
      Text.lineFeed ∉ s.rawLine n ∧ s.rawLine n <+: s.text.drop (s.starts.getD (n - 1) 0) := by
  refine ⟨⟨pairwise_lineStarts s.text, rfl, fun o => ?_⟩, ?_, fun n hn => ?_⟩
  · rw [starts, lineStarts, List.mem_toArray, List.mem_cons, mem_startsAfter_iff]
    simp only [Nat.zero_add]
  · have hmap : (List.range' 1 s.lineCount).map (fun n : Nat =>
        if (s.rawLine n).endsWith [Text.carriageReturn] then s.line n ++ [Text.carriageReturn]
        else s.line n) = Text.lines s.text := by
      rw [← map_rawLine]
      refine List.map_congr_left fun n hn => (s.rawLine_eq ?_).symm
      exact (List.mem_range'_1.1 hn).1
    rw [hmap, Text.join_lines]
  · obtain ⟨hpos, hlt⟩ := List.mem_range'_1.1 hn
    rw [lineCount_eq] at hlt
    have hi : n - 1 < (Text.lines s.text).length := by omega
    have hmem : s.rawLine n ∈ Text.lines s.text := by
      rw [rawLine, List.getD_eq_getElem _ _ hi]
      exact List.getElem_mem hi
    exact ⟨Text.notMem_of_mem_lines hmem, lines_isPrefix_drop s.text hi⟩

end Source

end Scriptlet
