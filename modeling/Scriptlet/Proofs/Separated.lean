import Scriptlet.Proofs.Scan

/-!
# Separated words

Any list of lexemes can be written down so that it is read back. Between two lexemes there has to be
a separator: layout, closed block comments, and line comments with the end of their line. A
separator is a gap (`Separator.gap`) and continues no lexeme (`Separator.stops`), so a text written
in this way gives the lexemes at the offsets at which they were put (`tokenize_written`).
-/

namespace Scriptlet

/-! ### Separators -/

/-- What may stand around lexemes, whatever comes after it. -/
inductive Separator : Text → Prop where
  /-- Nothing. -/
  | empty : Separator []
  /-- A layout rune, and more. -/
  | layout {c : Nat} {s : Text} :
      Rule.isLayout c = true → Separator s → Separator (Rune.encode c ++ s)
  /-- A line comment with the end of its line, and more. -/
  | line {body s : Text} {e : UInt8} :
      (∀ b ∈ body, Rule.endsLine b = false) → Rule.endsLine e = true → Separator s →
      Separator (utf8 "//" ++ body ++ e :: s)
  /-- A closed block comment, and more. -/
  | block {body s : Text} : ¬ utf8 "*/" <:+: body → Separator s →
      Separator (utf8 "/*" ++ body ++ utf8 "*/" ++ s)

/-- The end of a line is layout. -/
theorem Passed.endOfLine {e : UInt8} (h : Rule.endsLine e = true) (t : Text) : Passed [e] t := by
  simp only [Rule.endsLine, Bool.or_eq_true, decide_eq_true_eq] at h
  rcases h with rfl | rfl
  · exact .layout (c := 10) rfl
  · exact .layout (c := 13) rfl

namespace Separator

variable {s : Text}

/-- A separator is passed over. -/
theorem gap (h : Separator s) (t : Text) : Gap (s ++ t) t := by
  induction h with
  | empty => exact .none t
  | layout hc _ ih =>
    rw [List.append_assoc]
    exact .piece (.layout hc) ih
  | @line body s e hb he _ ih =>
    have e₁ : utf8 "//" ++ body ++ e :: s ++ t = (utf8 "//" ++ body) ++ ([e] ++ (s ++ t)) := by simp
    rw [e₁]
    refine .piece (.line hb ?_) (.piece (.endOfLine he _) ih)
    rintro _ ⟨⟩
    exact he
  | block hb _ ih =>
    rw [List.append_assoc]
    exact .piece (.block hb) ih

/-- The first byte of a separator is a slash, or one with which layout begins. -/
theorem head_toNat (h : Separator s) : ∀ b ∈ s.head?,
    b.toNat = 47 ∨ (9 ≤ b.toNat ∧ b.toNat ≤ 13) ∨ b.toNat = 32 ∨ 128 ≤ b.toNat := by
  cases h with
  | empty => rintro _ ⟨⟩
  | @layout c s hc _ =>
    intro b hb
    obtain ⟨t, ht⟩ := List.head?_eq_some_iff.1 hb
    have hpos : 0 < Rule.layoutLength (b :: t) := by
      rw [← ht, Rule.layoutLength_encode_append hc]
      have := List.length_pos_iff.2 (Rune.encode_ne_nil c)
      omega
    exact .inr (Rule.layoutLength_first hpos)
  | line _ _ _ =>
    rintro _ ⟨⟩
    exact .inl rfl
  | block _ _ =>
    rintro _ ⟨⟩
    exact .inl rfl

/-- A separator continues no lexeme. -/
theorem stops (h : Separator s) (hs : s ≠ []) (k : Kind) (t : Text) : Stops k (s ++ t) := by
  intro b hb
  rw [List.head?_append_of_ne_nil s hs] at hb
  have first := h.head_toNat b hb
  have digit : Text.isDigit b = false := by
    by_contra hd
    have := Rule.isDigit_toNat (by simpa using hd)
    omega
  have start : Rule.isNameStart b = false := by
    by_contra hn
    have := Rule.isNameStart_toNat (by simpa using hn)
    omega
  have sign {c : UInt8} (hc : c.toNat = 58 ∨ c.toNat = 59) : b ≠ c := by
    rintro rfl
    omega
  cases k with
  | number => exact digit
  | identifier => simp [Kind.continues, Rule.isNamePart, digit, start]
  | semicolon => exact decide_eq_false (sign (.inr rfl))
  | colon => exact decide_eq_false (sign (.inl rfl))
  | _ => rfl

end Separator

/-! ### Words -/

/-- A lexeme with the separator in front of it. -/
structure Word where
  /-- What stands in front of it. -/
  before : Text
  /-- The kind of the lexeme. -/
  kind : Kind
  /-- Its spelling. -/
  text : Text
  separator : Separator before
  lexeme : Lexeme kind text

namespace Word

/-- The text of the words. -/
def written (ws : List Word) : Text := ws.flatMap fun w => w.before ++ w.text

/-- The token of a word that is written at offset `o`. -/
def token (o : Nat) (w : Word) : Token :=
  ⟨w.kind, w.text, o + w.before.length, o + w.before.length + w.text.length⟩

/-- The tokens of words that are written one after the other from offset `o` on. -/
def tokens (o : Nat) : List Word → List Token
  | [] => []
  | w :: ws => w.token o :: tokens (w.token o).stop ws

/-- Between two words there is something. -/
def Separated (ws : List Word) : Prop := ∀ w ∈ ws.tail, w.before ≠ []

theorem written_cons (w : Word) (ws : List Word) (tail : Text) :
    written (w :: ws) ++ tail = w.before ++ (w.text ++ (written ws ++ tail)) := by
  simp [written]

theorem length_written_cons (o : Nat) (w : Word) (ws : List Word) :
    o + (written (w :: ws)).length = (w.token o).stop + (written ws).length := by
  simp [written, token, Nat.add_assoc]

theorem Separated.tail {w : Word} {ws : List Word} (h : Separated (w :: ws)) : Separated ws :=
  fun w' hw' => h w' (List.mem_of_mem_tail hw')

/-- Each word ends where the next one is written. -/
theorem Separated.stops {w : Word} {ws : List Word} (h : Separated (w :: ws)) {tail : Text}
    (htail : Separator tail) : Stops w.kind (written ws ++ tail) := by
  cases ws with
  | nil =>
    by_cases ht : tail = []
    · subst ht
      rintro _ ⟨⟩
    · simpa [written] using htail.stops ht w.kind []
  | cons w' ws =>
    rw [written_cons]
    exact w'.separator.stops (h w' List.mem_cons_self) w.kind _

/-- A word is found where it is written. -/
theorem find_written {w : Word} {rest : Text} (hs : Stops w.kind rest) (o : Nat) :
    Cursor.find Rule.table ⟨o, w.before ++ (w.text ++ rest)⟩ =
      .token (w.token o) ⟨(w.token o).stop, rest⟩ :=
  find_eq_iff.2 (.token rfl (w.separator.gap _) w.lexeme hs)

theorem readAll_written {ws : List Word} (h : Separated ws) {tail : Text} (htail : Separator tail)
    (o : Nat) : (Cursor.readAll Rule.table ⟨o, written ws ++ tail⟩).1 =
      ⟨tokens o ws, .complete (o + (written ws).length + tail.length)⟩ := by
  induction ws generalizing o with
  | nil =>
    have found : Cursor.find Rule.table ⟨o, tail⟩ = .ended ⟨o + tail.length, []⟩ :=
      find_eq_iff.2 (.ended (by simpa using htail.gap []))
    exact congrArg Prod.fst (Cursor.readAll_of_ended found)
  | cons w ws ih =>
    rw [written_cons, Cursor.readAll_of_token (find_written (h.stops htail) o), ih h.tail,
      length_written_cons]
    rfl

end Word

/-- **Separated words are read back**: any lexemes with separators between them, and if one likes in
front of the first one and after the last one, are read as those lexemes with their kinds, at the
offsets at which they were put, and then there is the end. -/
theorem tokenize_written {ws : List Word} (h : Word.Separated ws) {tail : Text}
    (htail : Separator tail) : tokenize (Word.written ws ++ tail) =
        ⟨Word.tokens 0 ws, .complete (Word.written ws ++ tail).length⟩ ∧
      (tokenize (Word.written ws ++ tail)).all =
        Word.tokens 0 ws ++ [⟨.endOfInput, [], (Word.written ws ++ tail).length,
          (Word.written ws ++ tail).length⟩] := by
  have run : tokenize (Word.written ws ++ tail) =
      ⟨Word.tokens 0 ws, .complete (Word.written ws ++ tail).length⟩ := by
    rw [List.length_append, ← Nat.zero_add (Word.written ws).length]
    exact Word.readAll_written h htail 0
  exact ⟨run, by rw [run]; rfl⟩

/-- A keyword, a name that ends in a keyword, and a run of semicolons, between them a block comment
and a line comment with its end. -/
theorem tokenize_written_comments :
    ∃ ws, Word.Separated ws ∧ Separator [] ∧ Word.written ws ++ [] = utf8 "const/**/yconst//\n;;" ∧
      tokenize (utf8 "const/**/yconst//\n;;") =
        ⟨[⟨.const, utf8 "const", 0, 5⟩, ⟨.identifier, utf8 "yconst", 9, 15⟩,
          ⟨.semicolon, utf8 ";;", 18, 20⟩], .complete 20⟩ := by
  have name : IsName (utf8 "yconst") :=
    ⟨⟨121, utf8 "const", rfl, rfl⟩, List.all_eq_true.1 (by decide), by decide⟩
  have block : Separator (utf8 "/**/") := @Separator.block [] [] (by decide) .empty
  have line : Separator (utf8 "//\n") := @Separator.line [] [] 10 (by simp) rfl .empty
  have semicolons : Lexeme .semicolon (utf8 ";;") :=
    ⟨by decide, List.forall_mem_cons.2 ⟨rfl, List.forall_mem_singleton.2 rfl⟩⟩
  have separated : Word.Separated [⟨[], .const, utf8 "const", .empty, rfl⟩,
      ⟨utf8 "/**/", .identifier, utf8 "yconst", block, name⟩,
      ⟨utf8 "//\n", .semicolon, utf8 ";;", line, semicolons⟩] :=
    List.forall_mem_cons.2 ⟨List.cons_ne_nil _ _,
      List.forall_mem_singleton.2 (List.cons_ne_nil _ _)⟩
  exact ⟨_, separated, .empty, rfl, (tokenize_written separated .empty).1⟩

end Scriptlet
