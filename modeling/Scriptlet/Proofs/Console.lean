import Scriptlet.Console
import Scriptlet.Proofs.Concat
import Scriptlet.Proofs.Formats
import Scriptlet.Proofs.RoundTrip

/-!
# What the console prints

The console gives up only when no further line can help, and a program that is typed in line by line
is printed as the program that it is. If the pending lines fail for another reason than that they
end too early, then the token or the character in the way stays where it is whatever comes behind it
(`not_parse_of_unreadable`, `not_parse_of_snag`). So while the lines of a program are typed in, the
console waits or prints, and what it prints are the statements of the program, piece by piece. How a
piece is printed is said for each format; a piece whose JSON goes too deep is not printed as JSON,
and a message says so.
-/

namespace Scriptlet

/-! ### Failures that no further text mends -/

section Hopeless

variable {maxDepth : Int} {src : Text} {f : Failure}

/-- A character that starts no token stays in the way, unless a comment or string is open. -/
theorem not_parse_of_unreadable {u : Unreadable} (h : (tokenize src).ending = .unreadable u)
    (hopen : ¬ Open (src.drop u.offset)) (t : Text) :
    ¬ ∃ p, parse maxDepth (src ++ Text.lineFeed :: t) = .ok p := by
  obtain ⟨ts, ending, htok, hstuck⟩ := tokenize_append_of_unreadable h t
  obtain ⟨-, u', rfl⟩ := hstuck hopen
  rw [exists_parse_iff, htok]
  rintro ⟨⟨o, ho⟩, -⟩
  cases ho

/-- A token that does not fit stays in the way. -/
theorem not_parse_of_snag {why : Snag} {t : Token} {ts : List Token}
    (h : snag maxDepth src = some (why, t :: ts)) (more : Text) :
    ¬ ∃ p, parse maxDepth (src ++ Text.lineFeed :: more) = .ok p := by
  obtain ⟨before, b, htok, hrun, hstuck⟩ := Agenda.exists_run_of_snag h
  obtain ⟨us, ending, htok'⟩ := exists_tokenize_append src more
  rw [exists_parse_iff, snag, htok', htok, List.append_assoc, Agenda.snag_append hrun,
    List.cons_append, Agenda.snag_of_stop hstuck]
  rintro ⟨-, hnone⟩
  cases hnone

/-- A block for which there is no level left stays to be read. -/
theorem Agenda.block_mem_next {a b : Agenda} {k : Kind} (hn : a.next k = .ok b)
    (h : Task.block 0 ∈ a) : Task.block 0 ∈ b := by
  induction a with
  | nil => cases hn
  | cons task a ih =>
    rcases next_cons_eq_ok.1 hn with ⟨tasks, hm, rfl⟩ | ⟨hm, hn⟩
    · rcases List.mem_cons.1 h with rfl | ha
      · cases hm
      · exact List.mem_append_right tasks ha
    · rcases List.mem_cons.1 h with rfl | ha
      · cases hm
      · exact ih hn ha

/-- What lacks a level is a block. -/
theorem Agenda.block_mem_of_lack {a : Agenda} (h : a.lack = some .tooDeep) : Task.block 0 ∈ a := by
  obtain ⟨task, hmem, hlack⟩ := List.exists_of_findSome?_eq_some h
  cases task with
  | block n =>
    cases n with
    | zero => exact hmem
    | succ n => cases hlack
  | _ => cases hlack

/-- A text that ends before a block too deep has no end as a program. -/
theorem not_parse_of_tooDeep (h : snag maxDepth src = some (.tooDeep, [])) (t : Text) :
    ¬ ∃ p, parse maxDepth (src ++ Text.lineFeed :: t) = .ok p := by
  obtain ⟨before, b, htok, hrun, hstuck⟩ := Agenda.exists_run_of_snag h
  obtain ⟨us, ending, htok'⟩ := exists_tokenize_append src t
  rw [exists_parse_iff, snag, htok', htok, List.append_nil, Agenda.snag_append hrun]
  rintro ⟨-, hnone⟩
  obtain ⟨c, hrun', hlack⟩ := Agenda.snag_eq_none_iff.1 hnone
  have hmem : Task.block 0 ∈ c :=
    Agenda.run_invariant Agenda.block_mem_next hrun' (Agenda.block_mem_of_lack hstuck)
  cases List.findSome?_eq_none_iff.1 hlack _ hmem

theorem not_open_of_isIncomplete {o : Nat} {character : Text}
    (h : Failure.isIncomplete ⟨o, .unexpectedCharacter character⟩ src = false) :
    ¬ Open (src.drop o) := by
  simpa [Failure.isIncomplete, Text.startsWith, Open, ← List.isPrefixOf_iff_prefix,
    and_assoc] using h

/-- A failure that is not an early end stays whatever comes behind the text. -/
theorem not_parse_of_error (h : parse maxDepth src = .error f) (hf : f.isIncomplete src = false)
    (t : Text) : ¬ ∃ p, parse maxDepth (src ++ Text.lineFeed :: t) = .ok p := by
  rcases parse_eq_error_iff.1 h with ⟨why, ts, hs, rfl⟩ | ⟨u, -, hu, rfl⟩
  · cases ts with
    | cons token ts => exact not_parse_of_snag hs t
    | nil =>
      cases hend : (tokenize src).ending with
      | unreadable u =>
        rw [Scope.failure_nil_of_unreadable _ hend] at hf
        exact not_parse_of_unreadable hend (not_open_of_isIncomplete hf) t
      | complete o =>
        cases why with
        | expected x =>
          rw [Scope.failure_nil_of_complete _ hend] at hf
          cases hf
        | tooDeep => exact not_parse_of_tooDeep hs t
  · exact not_parse_of_unreadable hu (not_open_of_isIncomplete hf) t

end Hopeless

/-! ### Trees that are moved are the same but for their spans -/

theorem Identifier.map_eraseSpan_shift (n : Nat) (ids : List Identifier) :
    (ids.map (Identifier.shift n)).map Identifier.eraseSpan = ids.map Identifier.eraseSpan := by
  rw [List.map_map]
  rfl

mutual
theorem Expression.eraseSpans_shift (n : Nat) :
    ∀ e : Expression, (e.shift n).eraseSpans = e.eraseSpans
  | .identifier _ => rfl
  | .number _ _ _ => rfl
  | .string _ _ _ => rfl
  | .call _ _ args => congrArg (Expression.call ⟨0, 0⟩ _) (Expression.eraseSpansAll_shiftAll n args)

theorem Expression.eraseSpansAll_shiftAll (n : Nat) : ∀ es : List Expression,
    Expression.eraseSpansAll (Expression.shiftAll n es) = Expression.eraseSpansAll es
  | [] => rfl
  | e :: es => congrArg₂ List.cons (e.eraseSpans_shift n) (Expression.eraseSpansAll_shiftAll n es)
end

mutual
theorem Statement.eraseSpans_shift (n : Nat) :
    ∀ s : Statement, (s.shift n).eraseSpans = s.eraseSpans
  | .declaration _ _ params _ =>
    congrArg (Statement.declaration ⟨0, 0⟩ _ · _) (Identifier.map_eraseSpan_shift n params)
  | .definition _ _ params _ _ body =>
    congrArg₂ (Statement.definition ⟨0, 0⟩ _ · _ ⟨0, 0⟩ ·) (Identifier.map_eraseSpan_shift n params)
      (Statement.eraseSpansAll_shiftAll n body)
  | .constant _ _ value => congrArg (Statement.constant ⟨0, 0⟩ _) (value.eraseSpans_shift n)
  | .return _ none => rfl
  | .return _ (some e) => congrArg (Statement.return ⟨0, 0⟩ <| some ·) (e.eraseSpans_shift n)
  | .expression e => congrArg Statement.expression (e.eraseSpans_shift n)
  | .block _ body => congrArg (Statement.block ⟨0, 0⟩) (Statement.eraseSpansAll_shiftAll n body)

theorem Statement.eraseSpansAll_shiftAll (n : Nat) : ∀ body : List Statement,
    Statement.eraseSpansAll (Statement.shiftAll n body) = Statement.eraseSpansAll body
  | [] => rfl
  | s :: body => congrArg₂ List.cons (s.eraseSpans_shift n)
      (Statement.eraseSpansAll_shiftAll n body)
end

namespace Console

/-- The text of the pending lines and one more. -/
def text (c : Console) (line : Text) : Text := Text.join [Text.lineFeed] (c.pending ++ [line])

/-- What the console shows for a program: the program in its format, or why it has none there. -/
def Shows (c : Console) (p : Program) (out : Text) : Prop :=
  p.Printed c.format out ∨ ∃ message, p.Refused c.format message ∧ out = message ++ [Text.lineFeed]

/-- The console with one more line that waits. -/
def hold (c : Console) (line : Text) : Console := { c with pending := c.pending ++ [line] }

section Feed

variable {c : Console} {line : Text} {p : Program} {f : Failure}

theorem feed_of_print {out : Text} (h : parse c.maxDepth (c.text line) = .ok p)
    (hprint : p.print c.format = .ok out) : c.feed line = ⟨c.reset, false, out⟩ := by
  simp only [feed]
  rw [← text, h]
  simp only [hprint]

theorem feed_of_error (h : parse c.maxDepth (c.text line) = .error f)
    (hf : f.isIncomplete (c.text line) = false) :
    c.feed line = ⟨c.reset, false,
      Diagnostic.print false (f.message ⟨sourceName, c.text line⟩)⟩ := by
  simp only [feed]
  rw [← text, h]
  exact if_neg (by simp [hf])

end Feed

/-- The lines take the console `c` to `d`, and on the way each of the programs is shown with the
text beside it, and nothing else is printed: each line is held back for more, or makes a program of
the pending ones. -/
inductive Prints : Console → List Text → List (Program × Text) → Console → Prop where
  /-- There are no lines. -/
  | nil (c : Console) : Prints c [] [] c
  /-- The line is held back. -/
  | wait {c d : Console} {line : Text} {lines : List Text} {shown : List (Program × Text)} :
      c.feed line = ⟨c.hold line, true, []⟩ → Prints (c.hold line) lines shown d →
      Prints c (line :: lines) shown d
  /-- The pending lines and this one are a program. -/
  | print {c d : Console} {line out : Text} {lines : List Text} {p : Program}
      {shown : List (Program × Text)} :
      parse c.maxDepth (c.text line) = .ok p → c.Shows p out → c.feed line = ⟨c.reset, false, out⟩ →
      Prints c.reset lines shown d → Prints c (line :: lines) ((p, out) :: shown) d

/-- With a limit up to 3331 every program is shown in its format. -/
theorem Prints.printed {c d : Console} {lines : List Text} {shown : List (Program × Text)}
    (h : c.Prints lines shown d) (hformat : Format.IsKnown c.format)
    (hlimit : c.format = utf8 "json" → depthLimit c.maxDepth ≤ 3331) :
    ∀ s ∈ shown, s.1.Printed c.format s.2 := by
  induction h with
  | nil c => exact fun s hs => absurd hs List.not_mem_nil
  | wait _ _ ih => exact ih hformat hlimit
  | print hparse _ hfeed _ ih =>
    refine List.forall_mem_cons.2 ⟨?_, ih hformat hlimit⟩
    obtain ⟨content, hprint, hprinted⟩ := exists_print_of_parse hparse hformat hlimit
    have hout := hfeed.symm.trans (feed_of_print hparse hprint)
    simp only [Reaction.mk.injEq, true_and] at hout
    rwa [hout]

/-- **The console gives up only when nothing can help.** If it shows a failure and drops the pending
lines, then these and any further text are no program. -/
theorem feed_gives_up {maxDepth : Int} {src : Text} {f : Failure}
    (h : parse maxDepth src = .error f) (hf : f.isIncomplete src = false) :
    (∀ t, ∃ g, parse maxDepth (src ++ Text.lineFeed :: t) = .error g) ∧
      ∀ (c : Console) (line : Text), c.maxDepth = maxDepth → c.text line = src →
        c.feed line = ⟨c.reset, false, Diagnostic.print false (f.message ⟨sourceName, src⟩)⟩ := by
  constructor
  · intro t
    have hnot := not_parse_of_error h hf t
    cases hp : parse maxDepth (src ++ Text.lineFeed :: t) with
    | error g => exact ⟨g, rfl⟩
    | ok p => exact absurd ⟨p, hp⟩ hnot
  · rintro c line rfl rfl
    exact feed_of_error h hf

theorem feed_gives_up_tooDeep :
    parse 1 (utf8 "function f() \x7b function g()") = .error ⟨27, .tooDeep 1⟩ ∧
      ∀ t, ∃ g, parse 1 (utf8 "function f() \x7b function g()" ++ Text.lineFeed :: t) =
        .error g := by
  have h : parse 1 (utf8 "function f() \x7b function g()") = .error ⟨27, .tooDeep 1⟩ :=
    eq_error_of_map (by decide +kernel)
  exact ⟨h, (feed_gives_up h rfl).1⟩

end Console

end Scriptlet
