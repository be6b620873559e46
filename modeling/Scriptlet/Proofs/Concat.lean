import Scriptlet.Proofs.LineBreak
import Scriptlet.Proofs.Parse
import Scriptlet.Proofs.Ready
import Scriptlet.Proofs.Relabel
import Scriptlet.Proofs.Source

/-!
# Texts behind a program

A program and any text behind it, with a line feed between them, are parsed as each of them is
parsed alone. The tokens of the program take the agenda of the parser back to its start, so the text
behind it is read as if it stood alone, with its tokens moved by the bytes in front. If it is a
program too, then so is the whole, and otherwise the whole fails as the text behind fails.
-/

namespace Scriptlet

open Grammar

/-! ### Trees that are moved -/

/-- The span moved by `n` bytes. -/
def Span.shift (n : Nat) (s : Span) : Span := ⟨s.start + n, s.stop + n⟩

/-- The name with its span moved by `n` bytes. -/
def Identifier.shift (n : Nat) (id : Identifier) : Identifier := { id with span := id.span.shift n }

mutual
/-- The expression with its spans moved by `n` bytes. -/
def Expression.shift (n : Nat) : Expression → Expression
  | .identifier id => .identifier (id.shift n)
  | .number span value raw => .number (span.shift n) value raw
  | .string span value raw => .string (span.shift n) value raw
  | .call span callee args => .call (span.shift n) (callee.shift n) (Expression.shiftAll n args)

/-- The expressions with their spans moved by `n` bytes. -/
def Expression.shiftAll (n : Nat) : List Expression → List Expression
  | [] => []
  | e :: es => e.shift n :: Expression.shiftAll n es
end

mutual
/-- The statement with its spans moved by `n` bytes. -/
def Statement.shift (n : Nat) : Statement → Statement
  | .declaration span id params returnType =>
    .declaration (span.shift n) (id.shift n) (params.map (Identifier.shift n)) returnType
  | .definition span id params returnType bodySpan body =>
    .definition (span.shift n) (id.shift n) (params.map (Identifier.shift n)) returnType
      (bodySpan.shift n)
      (Statement.shiftAll n body)
  | .constant span id value => .constant (span.shift n) (id.shift n) (value.shift n)
  | .return span argument => .return (span.shift n) (argument.map (Expression.shift n))
  | .expression e => .expression (e.shift n)
  | .block span body => .block (span.shift n) (Statement.shiftAll n body)

/-- The statements with their spans moved by `n` bytes. -/
def Statement.shiftAll (n : Nat) : List Statement → List Statement
  | [] => []
  | s :: body => s.shift n :: Statement.shiftAll n body
end

section Shift

variable (n : Nat)

mutual
theorem Expression.shift_eq : ∀ e : Expression, e.shift n = e.mapSpans (· + n) (· + n)
  | .identifier _ => rfl
  | .number _ _ _ => rfl
  | .string _ _ _ => rfl
  | .call span callee args =>
    congrArg (Expression.call (span.shift n) (callee.shift n)) (Expression.shiftAll_eq args)

theorem Expression.shiftAll_eq : ∀ es : List Expression,
    Expression.shiftAll n es = Expression.mapSpansAll (· + n) (· + n) es
  | [] => rfl
  | e :: es => congrArg₂ List.cons e.shift_eq (Expression.shiftAll_eq es)
end

mutual
theorem Statement.shift_eq : ∀ s : Statement, s.shift n = s.mapSpans (· + n) (· + n)
  | .declaration _ _ _ _ => rfl
  | .definition span id params returnType bodySpan body =>
    congrArg (Statement.definition (span.shift n) (id.shift n)
      (params.map (Identifier.shift n)) returnType
      (bodySpan.shift n)) (Statement.shiftAll_eq body)
  | .constant span id value => congrArg (Statement.constant (span.shift n) (id.shift n))
      (value.shift_eq n)
  | .return span argument =>
    congrArg (fun f => Statement.return (span.shift n) (argument.map f))
      (funext (Expression.shift_eq n))
  | .expression e => congrArg Statement.expression (e.shift_eq n)
  | .block span body => congrArg (Statement.block (span.shift n)) (Statement.shiftAll_eq body)

theorem Statement.shiftAll_eq : ∀ body : List Statement,
    Statement.shiftAll n body = Statement.mapSpansAll (· + n) (· + n) body
  | [] => rfl
  | s :: body => congrArg₂ List.cons s.shift_eq (Statement.shiftAll_eq body)
end

/-- The trees of statements move with their tokens. -/
theorem Grammar.Stmt.treeAll_shift (body : List (Stmt Token)) :
    Stmt.treeAll (Stmt.mapAll (Token.shift n) body) = Statement.shiftAll n (Stmt.treeAll body) := by
  rw [Statement.shiftAll_eq, Statement.mapSpansAll_eq]
  exact Stmt.treeAll_map fun l _ => ⟨rfl, rfl, fun _ => rfl⟩

end Shift

/-! ### Failures that are moved -/

/-- The cause moved by `n` bytes; only a token has a place of its own. -/
def Cause.shift (n : Nat) : Cause → Cause
  | .unexpectedToken x t => .unexpectedToken x (t.shift n)
  | c => c

/-- The failure moved by `n` bytes. -/
def Failure.shift (n : Nat) (f : Failure) : Failure := ⟨f.offset + n, f.cause.shift n⟩

theorem Scope.failure_shift (n limit : Nat) (ending : Ending) (why : Snag) (ts : List Token) :
    Scope.failure ⟨ending.shift n, limit⟩ why (ts.map (Token.shift n)) =
      (Scope.failure ⟨ending, limit⟩ why ts).shift n := by
  cases why <;> cases ts <;> cases ending <;> rfl

/-! ### Behind a program -/

section Behind

variable {maxDepth : Int} {a b : Text} {p q : Program} {f : Failure}

/-- The tokens of a program take the agenda back to its start. -/
theorem run_tokens_of_parse (h : parse maxDepth a = .ok p) :
    (Agenda.start (depthLimit maxDepth)).run ((tokenize a).tokens.map Token.kind) =
      some (Agenda.start (depthLimit maxDepth)) := by
  obtain ⟨-, hsnag⟩ := exists_parse_iff.1 ⟨p, h⟩
  obtain ⟨b, hrun, hlack⟩ := Agenda.snag_eq_none_iff.1 hsnag
  have hready := Agenda.Ready.run .start hrun
  rw [hrun, hready.eq_start hlack]

theorem tokenize_behind (h : parse maxDepth a = .ok p) (b : Text) :
    tokenize (a ++ Text.lineFeed :: b) =
      ⟨(tokenize a).tokens ++ (tokenize b).tokens.map (Token.shift (a.length + 1)),
        (tokenize b).ending.shift (a.length + 1)⟩ := by
  obtain ⟨⟨o, ho⟩, -⟩ := exists_parse_iff.1 ⟨p, h⟩
  exact tokenize_append_of_complete ho b

/-- The snag behind a program is that of the text alone. -/
theorem snag_behind (h : parse maxDepth a = .ok p) (b : Text) :
    snag maxDepth (a ++ Text.lineFeed :: b) =
      (snag maxDepth b).map (Prod.map id (List.map (Token.shift (a.length + 1)))) := by
  have hkind (t : Token) : (t.shift (a.length + 1)).kind = t.kind := rfl
  rw [snag, tokenize_behind h, Agenda.snag_append (run_tokens_of_parse h)]
  exact Agenda.snag_map hkind _

theorem parse_behind_of_error (h : parse maxDepth a = .ok p) (hb : parse maxDepth b = .error f) :
    parse maxDepth (a ++ Text.lineFeed :: b) = .error (f.shift (a.length + 1)) := by
  rw [parse_eq_error_iff, snag_behind h, scope, tokenize_behind h]
  rcases parse_eq_error_iff.1 hb with ⟨why, ts, hs, rfl⟩ | ⟨u, hs, hu, rfl⟩
  · left
    exact ⟨why, ts.map (Token.shift (a.length + 1)), by rw [hs]; rfl,
      Scope.failure_shift _ _ _ why ts⟩
  · right
    exact ⟨{ u with offset := u.offset + (a.length + 1) }, by rw [hs]; rfl, by rw [hu]; rfl, rfl⟩

theorem parse_behind_of_ok (h : parse maxDepth a = .ok p) (hb : parse maxDepth b = .ok q) :
    parse maxDepth (a ++ Text.lineFeed :: b) =
      .ok ⟨⟨0, (a ++ Text.lineFeed :: b).length⟩,
        p.body ++ Statement.shiftAll (a.length + 1) q.body⟩ := by
  obtain ⟨-, d, hd, hdn, rfl⟩ := parse_eq_ok_iff.1 h
  obtain ⟨⟨o, ho⟩, e, he, hen, rfl⟩ := parse_eq_ok_iff.1 hb
  rw [parse_eq_ok_iff, tokenize_behind h, ho]
  refine ⟨⟨_, rfl⟩, d ++ Stmt.mapAll (Token.shift (a.length + 1)) e, ?_, ?_, ?_⟩
  · rw [Stmt.leavesAll_eq, List.flatMap_append, ← Stmt.leavesAll_eq, ← Stmt.leavesAll_eq, hd,
      Stmt.leavesAll_mapAll, he]
    simp [Token.shift]
  · rw [Stmt.nestingAll_le_iff, List.forall_mem_append, ← Stmt.nestingAll_le_iff,
      ← Stmt.nestingAll_le_iff, Stmt.nestingAll_mapAll]
    exact ⟨hdn, hen⟩
  · rw [Stmt.treeAll_eq (d ++ _), List.map_append, ← Stmt.treeAll_eq, ← Stmt.treeAll_eq,
      Stmt.treeAll_shift]

/-- **A program and a text behind it are parsed one by one.** The whole is a program exactly if the
text behind is one, and its statements are those of both. Otherwise it fails as the text behind
fails, further down by the lines in front, and with the same line quoted. -/
theorem parse_append_lineFeed (h : parse maxDepth a = .ok p) (b : Text) :
    match parse maxDepth b with
    | .ok q =>
      parse maxDepth (a ++ Text.lineFeed :: b) =
        .ok ⟨⟨0, (a ++ Text.lineFeed :: b).length⟩,
          p.body ++ Statement.shiftAll (a.length + 1) q.body⟩
    | .error f =>
      parse maxDepth (a ++ Text.lineFeed :: b) = .error (f.shift (a.length + 1)) ∧
        ∀ name, (f.shift (a.length + 1)).position ⟨name, a ++ Text.lineFeed :: b⟩ =
            (f.position ⟨name, b⟩).shift (a.count Text.lineFeed + 1) (a.length + 1) ∧
          (f.shift (a.length + 1)).context ⟨name, a ++ Text.lineFeed :: b⟩ =
            f.context ⟨name, b⟩ := by
  cases hb : parse maxDepth b with
  | ok q => exact parse_behind_of_ok h hb
  | error f =>
    refine ⟨parse_behind_of_error h hb, fun name => ?_⟩
    exact ⟨Source.position_append name a b f.offset, Source.context_append name a b f.offset⟩

end Behind

theorem parse_append_lineFeed_call : ∃ p q,
    parse 1 (utf8 "f(1);\n") = .ok p ∧ parse 1 (utf8 "g(2);") = .ok q ∧
    parse 1 (utf8 "f(1);\n" ++ Text.lineFeed :: utf8 "g(2);") =
      .ok ⟨⟨0, 12⟩, p.body ++ Statement.shiftAll 7 q.body⟩ ∧
    parse 1 (utf8 "f(1);\n" ++ Text.lineFeed :: utf8 "g(h(2));") = .error ⟨10, .tooDeep 1⟩ := by
  obtain ⟨p, hp⟩ : ∃ p, parse 1 (utf8 "f(1);\n") = .ok p := exists_ok_of_map (by decide +kernel)
  obtain ⟨q, hq⟩ : ∃ q, parse 1 (utf8 "g(2);") = .ok q := exists_ok_of_map (by decide +kernel)
  have hf : parse 1 (utf8 "g(h(2));") = .error ⟨3, .tooDeep 1⟩ :=
    eq_error_of_map (by decide +kernel)
  have hok := parse_append_lineFeed hp (utf8 "g(2);")
  have herror := parse_append_lineFeed hp (utf8 "g(h(2));")
  rw [hq] at hok
  rw [hf] at herror
  exact ⟨p, q, hp, hq, hok, herror.1⟩

end Scriptlet
