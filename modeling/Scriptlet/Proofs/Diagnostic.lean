import Scriptlet.Diagnostic
import Scriptlet.Files.Load
import Scriptlet.Proofs.Agenda
import Scriptlet.Proofs.Caret
import Scriptlet.Proofs.Quoted

/-!
# Diagnostics

The message of a failure has three lines: what is wrong and where, the line of the source, and the
caret below it (`Failure.lines_message`). What is quoted from the source has its line feeds escaped,
and the line that is shown has none, so no line is broken. Without colour a message is shown as it
is, whatever it looks like (`Diagnostic.print_false`).
-/

namespace Scriptlet

open Rune (IsScalar)

/-! ### Words without line feeds -/

namespace Text

theorem notMem_ofNat (n : Nat) : lineFeed ∉ ofNat n := by
  intro h
  have := (isDigits_ofNat n).2 lineFeed h
  cases this

theorem notMem_hex (w n : Nat) : lineFeed ∉ hex w n := by
  have digit : ∀ m : Fin 16, lineFeed ≠ hexDigit m.val := by decide
  intro h
  obtain ⟨d, hd⟩ := exists_hexDigit_of_mem h
  exact digit d hd

theorem notMem_escape {e : Text} (he : lineFeed ∉ e) (w n : Nat) : lineFeed ∉ e ++ hex w n :=
  List.not_mem_append he (notMem_hex w n)

theorem notMem_quotedCode {c : Nat} (hc : IsScalar c) : lineFeed ∉ quotedCode c := by
  rw [quotedCode]
  split
  · rename_i e he
    unfold shortEscape? at he
    split at he <;> cases he <;> decide
  · rename_i hnone
    split_ifs
    · -- a line feed has an escape, and no other character has its byte
      intro hmem
      have hbyte := Rune.encode_eq_of_mem_ascii hc (by decide) hmem
      rw [(Rune.encode_eq_singleton_iff hc (by decide)).1 hbyte] at hnone
      cases hnone
    · exact notMem_escape (by decide) 2 c
    · exact notMem_escape (by decide) 4 c
    · exact notMem_escape (by decide) 8 c

/-- **A quoted text stays on its line**, whatever it stands for. -/
theorem notMem_quoted (t : Text) : lineFeed ∉ quoted t := by
  have hbody : lineFeed ∉ inQuotes t := by
    induction t using runeInduction with
    | nil =>
      rw [inQuotes_nil]
      exact List.not_mem_nil
    | scalar c t hc ih =>
      rw [inQuotes_encode hc]
      exact List.not_mem_append (notMem_quotedCode hc) ih
    | malformed b t hb ih =>
      rw [inQuotes_malformed hb]
      exact List.not_mem_append (notMem_escape (by decide) 2 b.toNat) ih
  rw [quoted_eq]
  exact List.not_mem_cons_of_ne_of_not_mem (by decide) (List.not_mem_append hbody (by decide))

theorem indent_of_notMem {t : Text} (h : lineFeed ∉ t) : indent t = tab :: t := by
  have hself : (t.flatMap fun b => if b = lineFeed then [lineFeed, tab] else [b]) = t := by
    induction t with
    | nil => rfl
    | cons b t ih =>
      rw [List.mem_cons, not_or] at h
      rw [List.flatMap_cons, if_neg (Ne.symm h.1), ih h.2, List.singleton_append]
  rw [indent, hself]

theorem indent_append (a b : Text) :
    indent (a ++ lineFeed :: b) = indent a ++ lineFeed :: indent b := by
  simp [indent]

end Text

theorem Kind.notMem_name (k : Kind) : Text.lineFeed ∉ k.name := by
  cases k <;> decide

theorem Expectation.notMem_text (x : Expectation) : Text.lineFeed ∉ x.text := by
  cases x with
  | kind k => exact k.notMem_name
  | statement => decide
  | expression => decide

theorem Cause.notMem_text (c : Cause) : Text.lineFeed ∉ c.text := by
  cases c with
  | unexpectedCharacter character =>
    exact List.not_mem_append (by decide) (Text.notMem_quoted character)
  | unexpectedToken x t =>
    simp only [Cause.text, List.mem_append, not_or]
    exact ⟨⟨⟨⟨⟨⟨by decide, x.notMem_text⟩, by decide⟩, t.kind.notMem_name⟩, by decide⟩,
      Text.notMem_quoted t.text⟩, by decide⟩
  | unexpectedEnd x => exact List.not_mem_append (by decide) x.notMem_text
  | tooDeep n => exact List.not_mem_append (by decide) (Text.notMem_ofNat n)

theorem Position.notMem_text {p : Position} (h : Text.lineFeed ∉ p.file) :
    Text.lineFeed ∉ p.text := by
  have hplace : Text.lineFeed ∉ Text.ofNat p.line ++ utf8 ":" ++ Text.ofNat p.column :=
    List.not_mem_append (List.not_mem_append (Text.notMem_ofNat p.line) (by decide))
      (Text.notMem_ofNat p.column)
  rw [Position.text]
  split
  · exact hplace
  · exact List.not_mem_append (List.not_mem_append h (by decide)) hplace

/-! ### The lines of a message -/

theorem Source.mem_caretIndent {line : Text} {column : Nat} {b : UInt8}
    (h : b ∈ caretIndent line column) : b = Text.tab ∨ b = Text.space := by
  obtain ⟨r, -, rfl⟩ := List.mem_map.1 h
  by_cases hr : r.1.code = Text.tab.toNat
  · exact .inl (if_pos hr)
  · exact .inr (if_neg hr)

namespace Failure

/-- What is wrong and where, on one line. -/
def headline (f : Failure) (s : Source) : Text := (f.position s).text ++ utf8 ": " ++ f.cause.text

theorem notMem_headline (f : Failure) {s : Source} (h : Text.lineFeed ∉ s.name) :
    Text.lineFeed ∉ f.headline s :=
  List.not_mem_append (List.not_mem_append (Position.notMem_text h) (by decide)) f.cause.notMem_text

/-- **A message has three lines**: the headline, the line of the source, and the caret below it. -/
theorem lines_message (f : Failure) {s : Source} (h : Text.lineFeed ∉ s.name) :
    let line := s.line (f.position s).line
    Text.lines (f.message s) = [f.headline s, Text.tab :: line,
      Text.tab :: (Source.caretIndent line (f.position s).column ++ utf8 "^")] := by
  intro line
  have hline : Text.lineFeed ∉ line := Source.notMem_line_position s f.offset
  have hcaret : Text.lineFeed ∉ Source.caretIndent line (f.position s).column ++ utf8 "^" := by
    refine List.not_mem_append ?_ (by decide)
    intro hmem
    rcases Source.mem_caretIndent hmem with htab | hspace
    · cases htab
    · cases hspace
  have hmessage : f.message s = f.headline s ++
      Text.lineFeed :: (Text.tab :: line ++ Text.lineFeed ::
      (Text.tab :: (Source.caretIndent line (f.position s).column ++ utf8 "^"))) := by
    have hcontext : f.context s =
        line ++ Text.lineFeed :: (Source.caretIndent line (f.position s).column ++ utf8 "^") := by
      simp [Failure.context, Source.context, line, position]
    rw [message, hcontext, Text.indent_append, Text.indent_of_notMem hline,
      Text.indent_of_notMem hcaret, headline]
    simp
  have htab : Text.lineFeed ≠ Text.tab := by decide
  rw [hmessage, Text.lines_append, Text.lines_append, Text.lines_of_notMem (f.notMem_headline h),
    Text.lines_of_notMem (List.not_mem_cons_of_ne_of_not_mem htab hline),
    Text.lines_of_notMem (List.not_mem_cons_of_ne_of_not_mem htab hcaret)]
  rfl

end Failure

/-! ### Showing a message -/

theorem Text.join_concat_lineFeed (first : Text) (rest : List Text) :
    join [lineFeed] (first :: rest) ++ [lineFeed] =
      first ++ [lineFeed] ++ rest.flatMap fun line => line ++ [lineFeed] := by
  induction rest generalizing first with
  | nil => simp [join, List.intercalate]
  | cons second rest ih =>
    rw [join_cons_cons, List.flatMap_cons, List.append_assoc, List.append_assoc, ih second]
    simp

/-- **Without colour a message is shown as it is**, behind the label and with a line feed at its
end. -/
theorem Diagnostic.print_false (message : Text) :
    Diagnostic.print false message = utf8 "error: " ++ message ++ [Text.lineFeed] := by
  obtain ⟨first, rest, hlines⟩ := List.exists_cons_of_ne_nil (Text.lines_ne_nil message)
  have hjoin := Text.join_concat_lineFeed first rest
  rw [← hlines, Text.join_lines] at hjoin
  have hlater : laterLine false = fun line => line ++ [Text.lineFeed] := by
    funext line
    simp [laterLine]
  rw [print, hlines, List.append_assoc _ message, hjoin, hlater]
  simp [label]

/-- **Diagnostics are three lines, shown verbatim.** If a source is no program, the message splits
at its line feeds into a headline that starts with the position, the line of the position behind a
tab, and a caret behind a tab and further tabs and blanks. Any message at all is shown without
colour as it is. -/
theorem diagnostic_three_lines :
    (∀ (s : Source) (maxDepth : Int) (e : LoadError), Text.lineFeed ∉ s.name →
      s.parse maxDepth = .error e →
      ∃ f headline indent, e = .source s f ∧ parse maxDepth s.text = .error f ∧
        Text.lines e.message =
          [headline, Text.tab :: s.line (f.position s).line, Text.tab :: (indent ++ utf8 "^")] ∧
        (f.position s).text <+: headline ∧ ∀ b ∈ indent, b = Text.tab ∨ b = Text.space) ∧
      ∀ message, Diagnostic.print false message = utf8 "error: " ++ message ++ [Text.lineFeed] := by
  refine ⟨?_, Diagnostic.print_false⟩
  intro s maxDepth e hname h
  rw [Source.parse] at h
  cases hparse : parse maxDepth s.text with
  | ok p =>
    rw [hparse] at h
    cases h
  | error f =>
    rw [hparse] at h
    obtain rfl := Except.error.inj h
    refine ⟨f, f.headline s, _, rfl, rfl, f.lines_message hname, ?_, ?_⟩
    · exact (List.prefix_append _ _).trans (List.prefix_append _ _)
    · intro b hb
      exact Source.mem_caretIndent hb

theorem diagnostic_three_lines_string :
    let s : Source := ⟨utf8 "f", utf8 "\tconst 'a\n" ++ 255 :: utf8 "'"⟩
    let f : Failure := ⟨7, .unexpectedToken (.kind .identifier)
      ⟨.string, utf8 "'a\n" ++ 255 :: utf8 "'", 7, 12⟩⟩
    s.parse 0 = .error (.source s f) ∧
      (∃ headline indent, Text.lines (f.message s) =
          [headline, Text.tab :: utf8 "\tconst 'a", Text.tab :: (indent ++ utf8 "^")] ∧
        utf8 "f:1:8" <+: headline ∧ ∀ b ∈ indent, b = Text.tab ∨ b = Text.space) ∧
      Diagnostic.print false (f.message s) = utf8 "error: " ++ f.message s ++ [Text.lineFeed] := by
  intro s f
  have hparse : parse 0 s.text = .error f := eq_error_of_map (by decide +kernel)
  have h : s.parse 0 = .error (.source s f) := by rw [Source.parse, hparse]
  obtain ⟨f', headline, indent, -, hf, hlines, hhead, hindent⟩ :=
    diagnostic_three_lines.1 s 0 (.source s f) (by decide) h
  obtain rfl := Except.error.inj (hparse.symm.trans hf)
  have hline : s.line (f.position s).line = utf8 "\tconst 'a" := by decide +kernel
  have hposition : (f.position s).text = utf8 "f:1:8" := by decide +kernel
  rw [hline] at hlines
  rw [hposition] at hhead
  exact ⟨h, ⟨headline, indent, hlines, hhead, hindent⟩, diagnostic_three_lines.2 (f.message s)⟩

end Scriptlet
