import Scriptlet.Proofs.Boundary
import Scriptlet.Proofs.Diagnostic
import Scriptlet.Proofs.Viable

/-!
# Highlighted lines

With colour, a line of a message is green if there is nothing on it but a caret and blanks. The
caret below the quoted line is such a line; the quoted line itself may be one too. That happens only
if the failure is about that very caret (`cause_of_loneCaret`): a token does not begin with a blank
or a caret, a blank that cannot be read does not exist, and in front of the end of a text that is
all tokens a caret stands in a string or a comment, with a mark of it on the same line.
-/

namespace Scriptlet

open Rune (IsScalar)

namespace Text

/-! ### Blanks -/

theorem isBlankText_append {a b : Text} (h : RunesApart a b) :
    isBlankText (a ++ b) = (a.isBlankText && b.isBlankText) := by
  rw [isBlankText, h, List.all_append]
  rfl

theorem runes_ascii {b : UInt8} (hb : b.toNat < 0x80) (t : Text) :
    runes (b :: t) = (⟨b.toNat, 1, true, by decide⟩, [b]) :: runes t := by
  rw [runes]
  simp only [Rune.read_ascii hb]
  rfl

/-- A rune has bytes, and they are bytes of the text. -/
theorem subset_of_mem_runes {t w : Text} {r : Rune} (h : (r, w) ∈ runes t) : w ≠ [] ∧ w ⊆ t := by
  induction t using runeInduction with
  | nil =>
    rw [runes_nil] at h
    cases h
  | scalar c t hc ih =>
    rw [runes_encode_append hc, List.mem_cons] at h
    rcases h with h | h
    · rw [(Prod.mk.inj h).2]
      exact ⟨Rune.encode_ne_nil c, List.subset_append_left _ t⟩
    · exact ⟨(ih h).1, List.subset_append_of_subset_right _ (ih h).2⟩
  | malformed b t hb ih =>
    rw [runes_malformed hb, List.mem_cons] at h
    rcases h with h | h
    · rw [(Prod.mk.inj h).2]
      exact ⟨List.cons_ne_nil b [], List.subset_append_left [b] t⟩
    · exact ⟨(ih h).1, List.subset_cons_of_subset b (ih h).2⟩

/-- An ASCII byte of a blank text is a blank. -/
theorem isBlank_of_mem {t : Text} (h : t.isBlankText = true) {b : UInt8} (hb : b.toNat < 0x80)
    (hmem : b ∈ t) : isBlank b.toNat = true := by
  induction t using runeInduction with
  | nil => cases hmem
  | scalar c t hc ih =>
    rw [isBlankText, runes_encode_append hc, List.all_cons, Bool.and_eq_true] at h
    rcases List.mem_append.1 hmem with hmem | hmem
    · have hone := Rune.encode_eq_of_mem_ascii hc hb hmem
      rw [← (Rune.encode_eq_singleton_iff hc hb).1 hone]
      exact h.1
    · exact ih h.2 hmem
  | malformed x t hx ih =>
    rw [isBlankText, runes_malformed hx, List.all_cons, Bool.and_eq_true] at h
    cases h.1

/-- Is the rune a blank? -/
def isBlankRune (r : Rune × Text) : Bool := isBlank r.1.code

theorem trim_eq (t : Text) : trim t =
    (((runes t).dropWhile isBlankRune).reverse.dropWhile isBlankRune).reverse.flatMap
      fun r => r.2 := rfl

theorem isBlankText_iff {t : Text} : t.isBlankText = true ↔ ∀ r ∈ runes t, isBlankRune r = true :=
  List.all_eq_true

end Text

theorem dropWhile_append_cons {α : Type} {p : α → Bool} {x : α} (hx : p x = false) (a b : List α) :
    (a ++ x :: b).dropWhile p = a.dropWhile p ++ x :: b := by
  rw [List.dropWhile_append]
  split
  · rename_i h
    rw [List.isEmpty_iff.1 h, List.dropWhile_cons_of_neg (by simp [hx]), List.nil_append]
  · rfl

namespace Diagnostic

/-! ### Lines with nothing but a caret -/

/-- There is a caret on the line, and all around it is blank. -/
def LoneCaret (line : Text) : Prop :=
  ∃ a b : Text, line = a ++ 94 :: b ∧ a.isBlankText = true ∧ b.isBlankText = true

theorem flatMap_eq_nil {t : Text} {rs : List (Rune × Text)} (h : rs ⊆ Text.runes t) :
    rs.flatMap (fun r => r.2) = [] ↔ rs = [] := by
  cases rs with
  | nil => simp
  | cons r rs =>
    have := (Text.subset_of_mem_runes (h List.mem_cons_self)).1
    simp [this]

/-- The rune of a caret. -/
def caretRune : Rune × Text := (⟨94, 1, true, Nat.one_pos⟩, [94])

theorem runes_append_caret (a b : Text) :
    Text.runes (a ++ 94 :: b) = Text.runes a ++ caretRune :: Text.runes b := by
  have hcaret : (94 : UInt8).toNat < 0x80 := by decide
  rw [Text.runesApart_cons hcaret a b, Text.runes_ascii hcaret]
  rfl

/-- What is left of a line with a caret on it: the caret, and what is not blank at the ends. -/
theorem trim_append (a b : Text) : Text.trim (a ++ 94 :: b) =
    ((Text.runes a).dropWhile Text.isBlankRune).flatMap (fun r => r.2) ++ 94 ::
      ((Text.runes b).reverse.dropWhile Text.isBlankRune).reverse.flatMap fun r => r.2 := by
  have hcaret : Text.isBlankRune caretRune = false := by decide
  rw [Text.trim_eq, runes_append_caret, dropWhile_append_cons hcaret]
  simp only [List.reverse_append, List.reverse_cons, List.append_assoc, List.singleton_append,
    dropWhile_append_cons hcaret, List.reverse_reverse, List.flatMap_append, List.flatMap_cons]
  rfl

/-- The blanks around a caret can be told on each side alone. -/
theorem isCaretLine_append (a b : Text) :
    isCaretLine (a ++ 94 :: b) = true ↔ a.isBlankText = true ∧ b.isBlankText = true := by
  have hleft : (Text.runes a).dropWhile Text.isBlankRune ⊆ Text.runes a :=
    (List.dropWhile_sublist _).subset
  have hright : ((Text.runes b).reverse.dropWhile Text.isBlankRune).reverse ⊆ Text.runes b := by
    intro r hr
    exact List.mem_reverse.1 ((List.dropWhile_sublist _).subset (List.mem_reverse.1 hr))
  have hsplit (x y : Text) : x ++ 94 :: y = utf8 "^" ↔ x = [] ∧ y = [] := by
    rw [show utf8 "^" = [94] by rfl, List.append_eq_singleton_iff]
    simp
  rw [isCaretLine, decide_eq_true_eq, trim_append, hsplit, flatMap_eq_nil hleft,
    flatMap_eq_nil hright, List.reverse_eq_nil_iff, List.dropWhile_eq_nil_iff,
    List.dropWhile_eq_nil_iff, Text.isBlankText_iff,
    Text.isBlankText_iff]
  simp only [List.mem_reverse]

theorem isCaretLine_iff (line : Text) : isCaretLine line = true ↔ LoneCaret line := by
  constructor
  · intro h
    have htrim : (94 : UInt8) ∈ Text.trim line := by
      rw [of_decide_eq_true h]
      exact List.mem_singleton_self 94
    rw [Text.trim_eq] at htrim
    obtain ⟨r, hr, hmem⟩ := List.mem_flatMap.1 htrim
    have hr' : r ∈ Text.runes line := (List.dropWhile_sublist _).subset
      (List.mem_reverse.1 ((List.dropWhile_sublist _).subset (List.mem_reverse.1 hr)))
    obtain ⟨a, b, rfl⟩ := List.append_of_mem ((Text.subset_of_mem_runes hr').2 hmem)
    exact ⟨a, b, rfl, (isCaretLine_append a b).1 h⟩
  · rintro ⟨a, b, rfl, hblank⟩
    exact (isCaretLine_append a b).2 hblank

theorem LoneCaret.rune {line : Text} (h : LoneCaret line) {r : Rune × Text}
    (hr : r ∈ Text.runes line) : Text.isBlankRune r = true ∨ r = caretRune := by
  obtain ⟨a, b, rfl, ha, hb⟩ := h
  rw [runes_append_caret, List.mem_append, List.mem_cons] at hr
  rcases hr with hr | rfl | hr
  · exact .inl (Text.isBlankText_iff.1 ha r hr)
  · exact .inr rfl
  · exact .inl (Text.isBlankText_iff.1 hb r hr)

instance (line : Text) : Decidable (LoneCaret line) := decidable_of_iff _ (isCaretLine_iff line)

end Diagnostic

/-! ### The line of an offset -/

namespace Text

theorem lastLine_append_lineFeed (a b : Text) : lastLine (a ++ lineFeed :: b) = b.lastLine := by
  induction b using List.reverseRecOn with
  | nil => exact lastLine_concat_lineFeed a
  | append_singleton b x ih =>
    rw [← List.cons_append, ← List.append_assoc]
    by_cases hx : x = lineFeed
    · rw [hx, lastLine_concat_lineFeed, lastLine_concat_lineFeed]
    · have hx' : lineFeed ∉ [x] := by simpa using Ne.symm hx
      rw [lastLine_append hx', lastLine_append hx', ih]

/-- What a text goes on with up to the end of the line. -/
def firstLine (t : Text) : Text := t.takeWhile (· != lineFeed)

theorem firstLine_of_notMem {t : Text} (h : lineFeed ∉ t) : t.firstLine = t := by
  rw [firstLine, List.takeWhile_eq_self_iff]
  intro x hx
  simpa using ne_of_mem_of_not_mem hx h

theorem firstLine_cons {b : UInt8} (h : b ≠ lineFeed) (t : Text) :
    firstLine (b :: t) = b :: firstLine t :=
  List.takeWhile_cons_of_pos (by simpa using h)

theorem firstLine_append_lineFeed {a : Text} (h : lineFeed ∉ a) (b : Text) :
    firstLine (a ++ lineFeed :: b) = a := by
  rw [firstLine, List.takeWhile_append_of_pos]
  · simp
  · intro x hx
    simpa using ne_of_mem_of_not_mem hx h

/-- The line that goes on from `a` to `b`. -/
theorem getElem?_lines_count (a b : Text) :
    (lines (a ++ b))[a.count lineFeed]? = some (a.lastLine ++ b.firstLine) := by
  induction a using lineInduction with
  | last a ha =>
    rw [List.count_eq_zero_of_not_mem ha, lastLine_of_notMem ha]
    by_cases hb : lineFeed ∈ b
    · obtain ⟨m, d, rfl, hm⟩ := List.eq_append_cons_of_mem hb
      rw [firstLine_append_lineFeed hm, ← List.append_assoc, lines_append,
        lines_of_notMem (List.not_mem_append ha hm)]
      rfl
    · rw [firstLine_of_notMem hb, lines_of_notMem (List.not_mem_append ha hb)]
      rfl
  | more a c ha ih =>
    rw [List.append_assoc, List.cons_append, lines_append, lines_of_notMem ha, List.count_append,
      List.count_eq_zero_of_not_mem ha, List.count_cons_self, Nat.zero_add, List.singleton_append,
      List.getElem?_cons_succ, ih, lastLine_append_lineFeed]

end Text

theorem Source.line_position_length (name a b : Text) :
    line ⟨name, a ++ b⟩ (position ⟨name, a ++ b⟩ a.length).line =
      Text.dropEnd (a.lastLine ++ b.firstLine) [Text.carriageReturn] := by
  obtain ⟨raw, hraw, hline⟩ := exists_line_position ⟨name, a ++ b⟩ a.length
  rw [hline]
  rw [position_length, Nat.add_sub_cancel, Text.getElem?_lines_count] at hraw
  rw [Option.some.inj hraw]

theorem Diagnostic.loneCaret_of_dropEnd {line : Text}
    (h : LoneCaret (Text.dropEnd line [Text.carriageReturn])) : LoneCaret line := by
  rw [Text.dropEnd] at h
  split at h
  · rename_i hend
    obtain ⟨l, rfl⟩ : ∃ l, l ++ [Text.carriageReturn] = line := List.isSuffixOf_iff_suffix.1 hend
    obtain ⟨a, b, hab, ha, hb⟩ := h
    have hl : l = a ++ 94 :: b := by simpa using hab
    refine ⟨a, b ++ [Text.carriageReturn], by simp [hl], ha, ?_⟩
    rw [Text.isBlankText_append (Text.runesApart_cons (by decide) b []), hb]
    decide +kernel
  · exact h

/-! ### Carets in tokens and comments -/

/-- Where a byte stands in two texts one after the other. -/
theorem append_eq_append_cons {w t x y : Text} {b : UInt8} (h : w ++ t = x ++ b :: y) :
    (∃ z, w = x ++ b :: z ∧ y = z ++ t) ∨ ∃ z, x = w ++ z ∧ t = z ++ b :: y := by
  rcases List.append_eq_append_iff.1 h with ⟨z, hx, ht⟩ | ⟨z, hw, ht⟩
  · exact .inr ⟨z, hx, ht⟩
  · cases z with
    | nil => exact .inr ⟨[], by simpa using hw.symm, ht.symm⟩
    | cons c z =>
      obtain ⟨rfl, rfl⟩ := List.cons.inj ht
      exact .inl ⟨z, hw, rfl⟩

theorem mem_of_concat_eq {v x z : Text} {q b : UInt8} (hq : q ≠ b) (e : v ++ [q] = x ++ b :: z) :
    q ∈ z := by
  rcases List.eq_nil_or_concat z with rfl | ⟨z, c, rfl⟩
  · exact absurd (List.singleton_inj.1 (List.append_inj' e rfl).2) hq
  · rw [List.concat_eq_append] at e ⊢
    rw [← List.cons_append, ← List.append_assoc] at e
    rw [List.singleton_inj.1 (List.append_inj' e rfl).2]
    exact List.mem_concat_self

/-- An ASCII character that is printed and is no caret. -/
def IsMark (b : UInt8) : Prop := 33 ≤ b.toNat ∧ b.toNat < 0x7F ∧ b ≠ 94

instance (b : UInt8) : Decidable (IsMark b) :=
  inferInstanceAs (Decidable (33 ≤ b.toNat ∧ b.toNat < 0x7F ∧ b ≠ 94))

theorem Diagnostic.LoneCaret.notMem {line : Text} (h : LoneCaret line) {b : UInt8} (hb : IsMark b) :
    b ∉ line := by
  obtain ⟨p, q, rfl, hp, hq⟩ := h
  obtain ⟨hlow, hhigh, hne⟩ := hb
  have hblank : ¬ isBlank b.toNat = true := by
    simp only [isBlank, Bool.or_eq_true, Bool.and_eq_true, decide_eq_true_eq]
    omega
  have hside {t : Text} (ht : t.isBlankText = true) : b ∉ t := fun hmem =>
    hblank (Text.isBlank_of_mem ht (by omega) hmem)
  exact List.not_mem_append (hside hp) (List.not_mem_cons_of_ne_of_not_mem hne (hside hq))

/-- On both sides of a caret together, on its line before it and anywhere behind it, there is a
mark. -/
def Beside (x y : Text) : Prop := ∃ b, IsMark b ∧ (b ∈ x.lastLine ∨ b ∈ y)

theorem Beside.append {x y : Text} (h : Beside x y) (w : Text) : Beside (w ++ x) y := by
  obtain ⟨b, hb, h⟩ := h
  refine ⟨b, hb, h.imp_left fun hmem => ?_⟩
  by_cases hx : Text.lineFeed ∈ x
  · obtain ⟨c, hc⟩ := Text.exists_append_lastLine hx
    have hl := Text.notMem_lastLine x
    generalize x.lastLine = l at hc hl hmem
    rw [hc, ← List.append_assoc, Text.lastLine_append_lineFeed, Text.lastLine_of_notMem hl]
    exact hmem
  · rw [Text.lastLine_append hx]
    rw [Text.lastLine_of_notMem hx] at hmem
    exact List.mem_append_right _ hmem

/-- A caret in what is passed over stands in a comment. -/
theorem Passed.beside {w t x z : Text} (h : Passed w t) (e : w = x ++ 94 :: z) :
    Beside x (z ++ t) := by
  cases h with
  | @layout c _ hc =>
    have hmem : 94 ∈ Rune.encode c := by
      rw [e]
      exact List.mem_append_right x List.mem_cons_self
    have hscalar := (Rule.isScalar_of_isLayout hc).1
    have hone := Rune.encode_eq_of_mem_ascii hscalar (by decide) hmem
    rw [(Rune.encode_eq_singleton_iff hscalar (by decide)).1 hone] at hc
    cases hc
  | @line body _ hb _ =>
    have hline : Text.lineFeed ∉ utf8 "//" ++ body := by
      refine List.not_mem_append (by decide) fun hmem => ?_
      cases hb _ hmem
    rw [e] at hline
    rw [show utf8 "//" = [47, 47] by rfl] at e
    cases x with
    | nil => cases e
    | cons c x =>
      obtain ⟨rfl, -⟩ := List.cons.inj e
      rw [List.mem_append, not_or] at hline
      refine ⟨47, by decide, .inl ?_⟩
      rw [Text.lastLine_of_notMem hline.1]
      exact List.mem_cons_self
  | @block body _ _ =>
    refine ⟨47, by decide, .inr (List.mem_append_left t ?_)⟩
    rw [show utf8 "*/" = [42] ++ [47] by rfl, ← List.append_assoc] at e
    exact mem_of_concat_eq (by decide) e

/-- A caret in a token stands in a string. -/
theorem Lexeme.kind_eq_of_mem {k : Kind} {w : Text} (h : Lexeme k w) (hmem : 94 ∈ w) :
    k = .string := by
  cases k with
  | endOfInput => exact h.elim
  | string => rfl
  | number => cases h.2 94 hmem
  | identifier => cases h.parts 94 hmem
  | semicolon => cases h.2 94 hmem
  | colon => cases h.2 94 hmem
  | _ =>
    rw [show w = _ from h] at hmem
    revert hmem
    decide

theorem IsQuote.isMark {q : UInt8} (h : IsQuote q) : IsMark q := by
  rcases h with rfl | rfl <;> decide

/-- A token begins with a mark. -/
theorem Lexeme.exists_isMark {k : Kind} {w : Text} (h : Lexeme k w) :
    ∃ b t, w = b :: t ∧ IsMark b := by
  obtain ⟨b, t, rfl⟩ := List.exists_cons_of_ne_nil h.ne_nil
  refine ⟨b, t, rfl, ?_⟩
  have hne : k ≠ .string → b ≠ 94 := fun hk hb => hk (h.kind_eq_of_mem (hb ▸ List.mem_cons_self))
  have range (hk : k ≠ .string) (hb : 33 ≤ b.toNat ∧ b.toNat < 0x7F) : IsMark b :=
      ⟨hb.1, hb.2, hne hk⟩
  cases k with
  | endOfInput => exact h.elim
  | string =>
    obtain ⟨v, q, hq, -, e⟩ := h
    rw [(List.cons.inj e).1]
    exact hq.isMark
  | number =>
    have := Rule.isDigit_toNat (h.2 b List.mem_cons_self)
    exact range (by decide) (by omega)
  | identifier =>
    obtain ⟨c, u, e, hc⟩ := h.start
    have := Rule.isNameStart_toNat hc
    rw [← (List.cons.inj e).1] at this
    exact range (by decide) (by omega)
  | semicolon =>
    rw [h.2 b List.mem_cons_self]
    decide
  | colon =>
    rw [h.2 b List.mem_cons_self]
    decide
  | _ =>
    rw [(List.cons.inj (show b :: t = _ from h)).1]
    decide

theorem Lexeme.beside {k : Kind} {w x z : Text} (h : Lexeme k w) (e : w = x ++ 94 :: z) (t : Text) :
    Beside x (z ++ t) := by
  have hmem : 94 ∈ w := by
    rw [e]
    exact List.mem_append_right x List.mem_cons_self
  obtain rfl := h.kind_eq_of_mem hmem
  obtain ⟨v, q, hq, -, rfl⟩ := h
  exact ⟨q, hq.isMark,
    .inr (List.mem_append_left t (mem_of_concat_eq (v := q :: v) hq.isMark.2.2 e))⟩

theorem Gap.beside {t rest x y : Text} (h : Gap t rest) (e : t = x ++ 94 :: y) :
    Beside x y ∨ ∃ g x', t = g ++ rest ∧ x = g ++ x' ∧ rest = x' ++ 94 :: y := by
  induction h generalizing x with
  | none t => exact .inr ⟨[], x, rfl, rfl, e⟩
  | @piece w t rest hw _ ih =>
    rcases append_eq_append_cons e with ⟨z, hz, rfl⟩ | ⟨z, rfl, hz⟩
    · exact .inl (hw.beside hz)
    · rcases ih hz with hbeside | ⟨g, x', ht, hx', hrest⟩
      · exact .inl (hbeside.append w)
      · exact .inr ⟨w ++ g, x', by rw [ht, List.append_assoc],
          by rw [hx', List.append_assoc], hrest⟩

theorem Scan.beside {src x y : Text} {i j : Nat} {ts : List Token} (h : Scan src i ts j)
    (hj : j = src.length) (e : src.drop i = x ++ 94 :: y) : Beside x y := by
  induction h generalizing x with
  | gap h =>
    rcases h.2.2.beside e with hbeside | ⟨g, x', -, -, hrest⟩
    · exact hbeside
    · rw [hj, List.drop_length] at hrest
      cases x' <;> cases hrest
  | token h ht hs ih =>
    rcases h.2.2.beside e with hbeside | ⟨g, x', -, rfl, hrest⟩
    · exact hbeside
    · rw [ht.drop_start] at hrest
      rcases append_eq_append_cons hrest with ⟨z, hz, rfl⟩ | ⟨z, rfl, hz⟩
      · exact (ht.lexeme.beside hz _).append g
      · exact ((ih hj hz).append _).append g

/-! ### What a failure quotes -/

theorem offset_of_complete {src : Text} {o : Nat} (h : (tokenize src).ending = .complete o) :
    o = src.length := by
  have hstop := (scan_readAll src 0 (Nat.zero_le _)).2
  rw [List.drop_zero] at hstop
  rw [tokenize, Cursor.start] at h
  rw [h] at hstop
  exact hstop.1

/-- The last line of a text that is all tokens is no lone caret. -/
theorem not_loneCaret_lastLine {src : Text} {o : Nat} (h : (tokenize src).ending = .complete o) :
    ¬ Diagnostic.LoneCaret src.lastLine := by
  intro hlone
  have hscan := scan_tokenize src
  rw [h] at hscan
  obtain ⟨p, q, e, -, -⟩ := id hlone
  have hline := Text.notMem_lastLine src
  obtain ⟨c, hsrc, hc⟩ : ∃ c, src = c ++ 94 :: q ∧ c.lastLine = p := by
    rw [e, List.mem_append, not_or] at hline
    by_cases hmem : Text.lineFeed ∈ src
    · obtain ⟨c, hc⟩ := Text.exists_append_lastLine hmem
      refine ⟨c ++ Text.lineFeed :: p, ?_, ?_⟩
      · rw [hc, e, List.append_assoc, List.cons_append]
      · rw [Text.lastLine_append_lineFeed, Text.lastLine_of_notMem hline.1]
    · rw [Text.lastLine_of_notMem hmem] at e
      exact ⟨p, e, Text.lastLine_of_notMem hline.1⟩
  obtain ⟨b, hb, hmem⟩ := hscan.beside (offset_of_complete h) hsrc
  apply hlone.notMem hb
  rw [e, List.mem_append, List.mem_cons]
  rw [hc] at hmem
  exact hmem.imp_right .inr

/-- What stands at the offset of a failure: a token, the end of the text, or a character that cannot
be read. -/
theorem exists_place_of_error {maxDepth : Int} {src : Text} {f : Failure}
    (h : parse maxDepth src = .error f) : (∃ t ∈ (tokenize src).tokens, f.offset = t.start) ∨
      (∃ o, (tokenize src).ending = .complete o ∧ f.offset = o) ∨
        ∃ u, (tokenize src).ending = .unreadable u ∧
          f = ⟨u.offset, .unexpectedCharacter u.character⟩ := by
  rcases parse_eq_error_iff.1 h with ⟨why, after, hs, rfl⟩ | ⟨u, -, hu, rfl⟩
  · obtain ⟨before, b, htok, -, -⟩ := Agenda.exists_run_of_snag hs
    cases after with
    | cons t after =>
      refine .inl ⟨t, ?_, Scope.offset_failure _ why _⟩
      rw [htok]
      exact List.mem_append_right before List.mem_cons_self
    | nil =>
      right
      cases hend : (tokenize src).ending with
      | complete o =>
        refine .inl ⟨o, rfl, ?_⟩
        rw [Scope.offset_failure, scope, hend]
        rfl
      | unreadable u => exact .inr ⟨u, rfl, Scope.failure_nil_of_unreadable _ hend why⟩
  · exact .inr (.inr ⟨u, hu, rfl⟩)

/-- On a line with a lone caret, a rune that is not layout is the caret. -/
theorem Diagnostic.LoneCaret.eq_caret {l m : Text} {b : UInt8} (h : LoneCaret (l ++ b :: m))
    (hapart : Text.RunesApart l (b :: m))
    (hlayout : ∀ c, Rule.isLayout c = true → ¬ Rune.encode c <+: b :: m) : b = 94 := by
  have hmem : (Rune.read b m, (b :: m).take (Rune.read b m).width) ∈ Text.runes (l ++ b :: m) := by
    rw [hapart, Text.runes]
    exact List.mem_append_right _ List.mem_cons_self
  rcases h.rune hmem with hblank | hcaret
  · exfalso
    have hcode : Rule.isLayout (Rune.read b m).code = true := by
      rw [Rule.isLayout, show isBlank _ = true from hblank, Bool.true_or]
    obtain ⟨c, v, hc, hv⟩ := (Rule.isLayout_read_iff b m).1 hcode
    exact hlayout c hc (hv ▸ List.prefix_append _ v)
  · obtain ⟨n, hn⟩ := Nat.exists_eq_add_one.2 (Rune.read b m).pos
    have hbytes := (Prod.mk.inj hcaret).2
    rw [hn, List.take_succ_cons] at hbytes
    exact (List.cons.inj hbytes).1

/-- A character that cannot be read and stands on a line with a lone caret is that caret. -/
theorem character_of_loneCaret {src : Text} {u : Unreadable}
    (h : (tokenize src).ending = .unreadable u) (hlone : Diagnostic.LoneCaret
      (Text.lastLine (src.take u.offset) ++ Text.firstLine (src.drop u.offset))) :
    u.character = utf8 "^" := by
  obtain ⟨b, t, e, hcharacter⟩ := exists_unreadable h
  have hnothing := (readAll_of_unreadable h).2
  have hboundary : src.IsBoundary u.offset := by
    have := ((scan_tokenize src).isBoundary (Text.isBoundary_zero src)).2
    rwa [h] at this
  have hapart := Text.lastLine_apart hboundary.2
  rw [e] at hlone hnothing hapart
  have hfeed : b ≠ Text.lineFeed := by
    rintro rfl
    exact hnothing.layout 10 (by decide) (List.prefix_append [10] t)
  rw [Text.firstLine_cons hfeed] at hlone
  obtain ⟨rest, hrest⟩ : b :: Text.firstLine t <+: b :: t :=
    (List.prefix_cons_inj b).2 (List.takeWhile_prefix _)
  rw [← hrest] at hapart hnothing
  have hb : b = 94 := hlone.eq_caret hapart.of_append fun c hc hbegins =>
    hnothing.layout c hc (hbegins.trans (List.prefix_append _ rest))
  rw [hcharacter, hb, Rune.read_ascii (by decide)]
  rfl

/-- **A failure quotes a lone caret only where that caret is in the way.** -/
theorem cause_of_loneCaret {s : Source} {maxDepth : Int} {f : Failure}
    (h : parse maxDepth s.text = .error f)
    (hlone : Diagnostic.LoneCaret (s.line (f.position s).line)) :
    f.cause = .unexpectedCharacter (utf8 "^") := by
  obtain ⟨name, src⟩ := s
  -- the line goes on from what stands before the offset to what stands behind it
  have hline (o : Nat) (ho : o ≤ src.length) (hf : f.offset = o) :
      Diagnostic.LoneCaret (Text.lastLine (src.take o) ++ Text.firstLine (src.drop o)) := by
    apply Diagnostic.loneCaret_of_dropEnd
    have := Source.line_position_length name (src.take o) (src.drop o)
    rw [List.take_append_drop, List.length_take_of_le ho] at this
    rw [← this, ← hf]
    exact hlone
  have hbound : (tokenize src).ending.offset ≤ src.length := (scan_tokenize src).le_length.2
  rcases exists_place_of_error h with ⟨t, ht, ho⟩ | ⟨o, hend, ho⟩ | ⟨u, hend, rfl⟩
  · -- a token begins with a mark
    exfalso
    have hstands := standsIn_of_mem_tokenize ht
    obtain ⟨b, w, hw, hb⟩ := hstands.lexeme.exists_isMark
    apply (hline t.start (hstands.start_le.trans hstands.stop_le) ho).notMem hb
    have hfeed : b ≠ Text.lineFeed := by
      rintro rfl
      revert hb
      decide
    rw [hstands.drop_start, hw, List.cons_append, Text.firstLine_cons hfeed]
    exact List.mem_append_right _ List.mem_cons_self
  · exfalso
    obtain rfl := offset_of_complete hend
    have hlast := hline src.length (Nat.le_refl _) ho
    rw [List.take_length, List.drop_length, Text.firstLine_of_notMem List.not_mem_nil,
      List.append_nil] at hlast
    exact not_loneCaret_lastLine hend hlast
  · rw [hend] at hbound
    rw [character_of_loneCaret hend (hline u.offset hbound rfl)]

/-! ### Showing with colour -/

namespace Diagnostic

/-- A line in green, with its line feed. -/
def highlighted (line : Text) : Text :=
  utf8 "\x1b[32;1m" ++ line ++ [Text.lineFeed] ++ utf8 "\x1b[0m"

theorem laterLine_of_loneCaret {line : Text} (h : LoneCaret line) :
    laterLine true line = highlighted line := by
  rw [laterLine, Bool.true_and, if_pos ((isCaretLine_iff line).2 h), highlighted]

theorem laterLine_of_not_loneCaret {line : Text} (h : ¬ LoneCaret line) :
    laterLine true line = line ++ [Text.lineFeed] := by
  rw [laterLine, Bool.true_and, if_neg fun hline => h ((isCaretLine_iff line).1 hline)]

theorem loneCaret_tab {line : Text} : LoneCaret (Text.tab :: line) ↔ LoneCaret line := by
  have hblank (a : Text) : Text.isBlankText (Text.tab :: a) = a.isBlankText := by
    rw [Text.isBlankText, Text.runes_ascii (by decide), List.all_cons]
    rfl
  constructor
  · rintro ⟨a, b, e, ha, hb⟩
    cases a with
    | nil => cases e
    | cons c a =>
      obtain ⟨rfl, rfl⟩ := List.cons.inj e
      exact ⟨a, b, rfl, (hblank a).symm.trans ha, hb⟩
  · rintro ⟨a, b, rfl, ha, hb⟩
    exact ⟨Text.tab :: a, b, rfl, (hblank a).trans ha, hb⟩

/-- The line below the quoted line has nothing on it but the caret. -/
theorem loneCaret_caretIndent (line : Text) (column : Nat) :
    LoneCaret (Source.caretIndent line column ++ utf8 "^") := by
  refine ⟨_, [], rfl, ?_, by decide +kernel⟩
  have hindent : ∀ b ∈ Source.caretIndent line column, b = Text.tab ∨ b = Text.space := fun b hb =>
    Source.mem_caretIndent hb
  generalize Source.caretIndent line column = indent at hindent
  induction indent with
  | nil => decide +kernel
  | cons b indent ih =>
    rw [List.forall_mem_cons] at hindent
    have hascii : b.toNat < 0x80 ∧ isBlank b.toNat = true := by
      rcases hindent.1 with rfl | rfl <;> decide
    rw [Text.isBlankText, Text.runes_ascii hascii.1, List.all_cons, Bool.and_eq_true]
    exact ⟨hascii.2, ih hindent.2⟩

end Diagnostic

open Diagnostic (LoneCaret highlighted)

/-- **What is highlighted in a diagnostic.** If a source is no program, the message is shown with
colour as its headline, the quoted line and the caret below it, and the caret line is highlighted.
The quoted line is not, unless a caret stands alone on it; and then the failure is about that
caret. -/
theorem coloured_diagnostic {s : Source} {maxDepth : Int} {f : Failure}
    (hname : Text.lineFeed ∉ s.name) (h : parse maxDepth s.text = .error f) :
    ∃ headline caret, Text.lines (f.message s) =
      [headline, Text.tab :: s.line (f.position s).line, caret] ∧
      Diagnostic.print true (f.message s) =
        Diagnostic.label true ++ headline ++ [Text.lineFeed] ++
          (if LoneCaret (s.line (f.position s).line)
            then highlighted (Text.tab :: s.line (f.position s).line)
            else Text.tab :: s.line (f.position s).line ++ [Text.lineFeed]) ++
          highlighted caret ∧
      (LoneCaret (s.line (f.position s).line) → f.cause = .unexpectedCharacter (utf8 "^")) := by
  refine ⟨_, _, f.lines_message hname, ?_, cause_of_loneCaret h⟩
  have hcaret := Diagnostic.loneCaret_caretIndent (s.line (f.position s).line) (f.position s).column
  rw [Diagnostic.print, f.lines_message hname]
  simp only [List.flatMap_cons, List.flatMap_nil, List.append_nil,
    Diagnostic.laterLine_of_loneCaret (Diagnostic.loneCaret_tab.2 hcaret), List.append_assoc]
  by_cases hline : LoneCaret (s.line (f.position s).line)
  · rw [if_pos hline, Diagnostic.laterLine_of_loneCaret (Diagnostic.loneCaret_tab.2 hline)]
  · rw [if_neg hline, Diagnostic.laterLine_of_not_loneCaret
      fun hlone => hline (Diagnostic.loneCaret_tab.1 hlone)]

theorem coloured_diagnostic_string :
    let s : Source := ⟨utf8 "f", utf8 "const '^\n^';"⟩
    let f : Failure := ⟨6, .unexpectedToken (.kind .identifier) ⟨.string, utf8 "'^\n^'", 6, 11⟩⟩
    parse 0 s.text = .error f ∧
      ∃ headline caret, Text.lines (f.message s) = [headline, Text.tab :: utf8 "const '^", caret] ∧
        Diagnostic.print true (f.message s) = Diagnostic.label true ++ headline ++
          [Text.lineFeed] ++
          (Text.tab :: utf8 "const '^" ++ [Text.lineFeed]) ++ highlighted caret := by
  intro s f
  have h : parse 0 s.text = .error f := eq_error_of_map (by decide +kernel)
  have hline : s.line (f.position s).line = utf8 "const '^" := by decide +kernel
  obtain ⟨headline, caret, hlines, hprint, -⟩ := coloured_diagnostic (by decide) h
  rw [hline] at hlines hprint
  rw [if_neg (by decide +kernel)] at hprint
  exact ⟨h, headline, caret, hlines, hprint⟩

/-- A caret that stands alone in a source is shown as if it were the one that points at it. -/
theorem highlighted_twice :
    let s : Source := ⟨[], utf8 "^"⟩
    let f : Failure := ⟨0, .unexpectedCharacter (utf8 "^")⟩
    let headline := utf8 "1:1: unexpected character \"^\""
    parse 0 s.text = .error f ∧ Text.lines (f.message s) = [headline, utf8 "\t^", utf8 "\t^"] ∧
      Diagnostic.print true (f.message s) = Diagnostic.label true ++ headline ++ [Text.lineFeed] ++
        highlighted (utf8 "\t^") ++ highlighted (utf8 "\t^") ∧
      Diagnostic.print true (f.message s) ≠ Diagnostic.label true ++ headline ++ [Text.lineFeed] ++
        (utf8 "\t^" ++ [Text.lineFeed]) ++ highlighted (utf8 "\t^") := by
  intro s f headline
  exact ⟨eq_error_of_map (by decide +kernel), by decide +kernel, by decide +kernel,
    by decide +kernel⟩

end Scriptlet
