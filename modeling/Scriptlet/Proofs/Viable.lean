import Scriptlet.Proofs.LineBreak
import Scriptlet.Proofs.Ready
import Scriptlet.Proofs.RoundTrip

/-!
# Failures stand at the first place

Up to the place of a failure a text is the beginning of a program, and what was expected there would
have gone on with it. Every agenda that occurs can be closed with a few tokens
(`Agenda.Ready.run_closing`). To open a block that is still to come may take one level more than
there is, so the program is one for a limit that is greater by one.
-/

namespace Scriptlet

/-! ### One level more -/

/-- The task with one level more. -/
def Task.raise : Task → Task
  | statements n => statements (n + 1)
  | body n => body (n + 1)
  | block n => block (n + 1)
  | expression n => expression (n + 1)
  | optionalArguments n => optionalArguments (n + 1)
  | moreArguments n => moreArguments (n + 1)
  | optionalExpression n => optionalExpression (n + 1)
  | task => task

/-- The agenda with one level more. -/
def Agenda.raise (a : Agenda) : Agenda := a.map Task.raise

/-- The move with one level more. -/
def Move.raise : Move → Move
  | .take tasks => .take (tasks.map Task.raise)
  | m => m

theorem expressionTasks_succ (n : Nat) (k : Kind) :
    expressionTasks (n + 1) k = (expressionTasks n k).map (List.map Task.raise) := by
  cases k <;> rfl

theorem statementTasks_succ (n : Nat) (k : Kind) :
    statementTasks (n + 1) k = (statementTasks n k).map (List.map Task.raise) := by
  cases k <;> rfl

theorem Move.raise_ofOption (x : Expectation) (o : Option (List Task)) :
    (Move.ofOption x o).raise = Move.ofOption x (o.map (List.map Task.raise)) := by
  cases o <;> rfl

/-- A level more changes a move only where there was a level too few. -/
theorem Task.move_raise {task : Task} {k : Kind} (h : task.move k ≠ .stop .tooDeep) :
    task.raise.move k = (task.move k).raise := by
  have again {n : Nat} (task : Task) (x : Expectation) :
      Move.ofOption x ((statementTasks (n + 1) k).map (· ++ [task.raise])) =
        (Move.ofOption x ((statementTasks n k).map (· ++ [task]))).raise := by
    rw [statementTasks_succ, Move.raise_ofOption, Option.map_map, Option.map_map]
    simp [Function.comp_def]
  cases task with
  | statements n => exact again (.statements n) .statement
  | body n =>
    simp only [raise, move]
    split
    · rfl
    · exact again (.body n) .statement
  | block n =>
    cases n with
    | zero => exact absurd rfl h
    | succ n =>
      simp only [raise, move]
      split <;> rfl
  | expression n => simp only [raise, move, expressionTasks_succ, Move.raise_ofOption]
  | optionalArguments n =>
    cases n with
    | zero =>
      simp only [move] at h
      simp only [raise, move]
      split at h
      · exact absurd rfl h
      · rename_i hk
        rw [if_neg hk, if_neg hk]
        rfl
    | succ n =>
      simp only [raise, move]
      split <;> rfl
  | optionalExpression n =>
    simp only [raise, move]
    split
    · rfl
    · rw [expressionTasks_succ, Move.raise_ofOption]
  | moreArguments n | firstParameter | moreParameters =>
    simp only [raise, move]
    split
    · rfl
    · split <;> rfl
  | one j | optionalType | parameters =>
    simp only [raise, move]
    split <;> rfl

namespace Agenda

variable {a b : Agenda} {k : Kind}

/-- What is read is read with one level more too. -/
theorem next_raise (h : a.next k = .ok b) : a.raise.next k = .ok b.raise := by
  induction a with
  | nil => cases h
  | cons task a ih =>
    rw [raise, List.map_cons, next_cons_eq_ok]
    rcases next_cons_eq_ok.1 h with ⟨tasks, hm, rfl⟩ | ⟨hm, hn⟩
    · left
      rw [Task.move_raise (by simp [hm]), hm]
      exact ⟨_, rfl, List.map_append.symm⟩
    · right
      rw [Task.move_raise (by simp [hm]), hm]
      exact ⟨rfl, ih hn⟩

theorem run_raise {ks : List Kind} (h : a.run ks = some b) : a.raise.run ks = some b.raise := by
  induction ks generalizing a with
  | nil => rw [run, Option.some.inj h]
  | cons k ks ih =>
    obtain ⟨c, hn, hc⟩ := run_cons_eq_some.1 h
    rw [run_of_next (next_raise hn), ih hc]

end Agenda

/-! ### Closing an agenda -/

/-- A few tokens that a task is done with. -/
def Task.closing : Task → List Kind
  | one k => [k]
  | body _ => [.closeBrace]
  | block _ => [.openBrace, .closeBrace]
  | parameters => [.openParen, .closeParen]
  | firstParameter | moreParameters | moreArguments _ => [.closeParen]
  | expression _ => [.number]
  | statements _ | optionalType | optionalArguments _ | optionalExpression _ => []

/-- A few tokens that an agenda is done with. -/
def Agenda.closing (a : Agenda) : List Kind := a.flatMap Task.closing

theorem Task.closing_eq_nil {task : Task} (h : task.lack = none) : task.closing = [] := by
  cases task with
  | statements | optionalType | optionalArguments | optionalExpression => rfl
  | block n => cases n <;> cases h
  | _ => cases h

namespace Agenda

variable {limit : Nat} {a b : Agenda} {k : Kind}

theorem closing_of_wants (h : k ∈ a.wants) : ∃ ks, a.closing = k :: ks := by
  obtain ⟨task, rest, rfl, hk⟩ := exists_task_of_wants h
  cases task with
  | one | block | moreParameters | moreArguments =>
    cases hk
    exact ⟨_, rfl⟩
  | _ => cases hk

/-- A task that lacks something is done with its closing tokens. -/
theorem run_closing_of_lack {task : Task} {why : Snag} (h : task.lack = some why) (a : Agenda) :
    run (task.raise :: a) task.closing = some a := by
  cases task with
  | one k => simp [Task.raise, Task.closing, run, next, Task.move]
  | statements | optionalType | optionalArguments | optionalExpression => cases h
  | _ => rfl

/-- **Every agenda that occurs can be closed**, with one level more. -/
theorem Ready.run_closing (h : Ready limit a) :
    a.raise.run a.closing = some (Agenda.start (limit + 1)) := by
  induction h with
  | start => rfl
  | @cons task a hb ha ih =>
    rw [raise, List.map_cons, closing, List.flatMap_cons]
    cases hl : task.lack with
    | some why =>
      rw [run_append (run_closing_of_lack hl _)]
      exact ih
    | none =>
      -- the first closing token of the agenda behind goes past the task
      obtain ⟨k, hk, hpass⟩ := hb.passes hl
      obtain ⟨ks, hks⟩ := closing_of_wants hk
      have hmove : task.raise.move k = .pass := by
        rw [Task.move_raise (by simp [hpass]), hpass]
        rfl
      rw [Task.closing_eq_nil hl, List.nil_append, ← closing, hks, Agenda.run, Agenda.next, hmove]
      rw [hks, Agenda.run] at ih
      exact ih

/-- What is read without a snag goes on to a program. -/
theorem run_start_closing {ks : List Kind} (h : (start limit).run ks = some b) :
    (start (limit + 1)).run (ks ++ b.closing) = some (start (limit + 1)) := by
  have hready : b.Ready limit := Ready.run .start h
  have hrun : (start (limit + 1)).run ks = some b.raise := run_raise h
  rw [run_append hrun, hready.run_closing]

end Agenda

/-! ### What was expected -/

/-- A kind of token that was expected: a number will do for a statement or an expression. -/
def Expectation.sample : Expectation → Kind
  | kind k => k
  | statement | expression => .number

namespace Task

variable {task : Task} {k : Kind} {x : Expectation}

/-- What a task expects when a token is in its way. -/
def expects : Task → Option Expectation
  | one k => some (.kind k)
  | statements _ | body _ => some .statement
  | block 0 | optionalType | optionalArguments _ => none
  | block (_ + 1) => some (.kind .openBrace)
  | parameters => some (.kind .openParen)
  | firstParameter => some (.kind .identifier)
  | moreParameters | moreArguments _ => some (.kind .closeParen)
  | expression _ | optionalExpression _ => some .expression

theorem expects_of_stop (h : task.move k = .stop (.expected x)) : task.expects = some x := by
  revert h
  fun_cases move task k <;> simp [expects]

/-- A task takes what it expects. -/
theorem take_of_expects (h : task.expects = some x) :
    ∃ tasks, task.move x.sample = .take tasks := by
  cases task with
  | one k =>
    obtain rfl := Option.some.inj h
    exact ⟨_, if_pos rfl⟩
  | block n =>
    cases n <;> cases h
    exact ⟨_, rfl⟩
  | optionalType | optionalArguments => cases h
  | _ =>
    cases h
    exact ⟨_, rfl⟩

/-- A task that wants a token expects nothing else, before a token or at the end. -/
theorem eq_of_wants (hk : k ∈ task.wants)
    (h : task.expects = some x ∨ task.lack = some (.expected x)) : x = .kind k := by
  cases task with
  | one | moreParameters | moreArguments =>
    cases hk
    rcases h with h | h <;> cases h <;> rfl
  | block n =>
    cases hk
    cases n <;> rcases h with h | h <;> cases h <;> rfl
  | _ => cases hk

theorem take_of_lack (h : task.lack = some (.expected x)) :
    ∃ tasks, task.move x.sample = .take tasks := by
  cases task with
  | one j =>
    cases h
    exact ⟨_, if_pos rfl⟩
  | block n =>
    cases n <;> cases h
    exact ⟨_, rfl⟩
  | body n | parameters | firstParameter | moreParameters | expression n | moreArguments n =>
    cases h
    exact ⟨_, rfl⟩
  | statements | optionalType | optionalArguments | optionalExpression => cases h

end Task

namespace Agenda

variable {limit : Nat} {a b : Agenda} {k : Kind} {x : Expectation} {ts : List Token}

/-- An agenda is stuck at its first task, or goes past that and is stuck behind it. -/
theorem stuck_cons {task : Task} {why : Snag} (h : Stuck (task :: a) why ts) :
    (∃ k, task.move k = .stop why) ∨ task.lack = some why ∨ task.lack = none ∧ a.Stuck why ts := by
  cases ts with
  | nil =>
    rw [Stuck, lack, List.findSome?_cons] at h
    split at h
    · rename_i hlack
      exact .inr (.inl (hlack.trans h))
    · rename_i hlack
      exact .inr (.inr ⟨hlack, h⟩)
  | cons t ts =>
    rw [Stuck, next] at h
    cases hm : task.move t.kind with
    | take tasks => simp [hm] at h
    | pass =>
      simp only [hm] at h
      exact .inr (.inr ⟨Task.lack_of_pass hm, h⟩)
    | stop why' =>
      simp only [hm, Except.error.injEq] at h
      exact .inl ⟨t.kind, h ▸ hm⟩

/-- Where an agenda that wants a token is stuck, that token was expected. -/
theorem eq_of_wants (hk : k ∈ a.wants) (h : a.Stuck (.expected x) ts) : x = .kind k := by
  obtain ⟨task, rest, rfl, hk⟩ := exists_task_of_wants hk
  rcases stuck_cons h with ⟨j, hj⟩ | hl | ⟨hl, -⟩
  · exact Task.eq_of_wants hk (.inl (Task.expects_of_stop hj))
  · exact Task.eq_of_wants hk (.inr hl)
  · exact absurd hl (Task.lack_of_wants hk)

theorem next_of_take {task : Task} {tasks : List Task} (h : task.move k = .take tasks)
    (a : Agenda) : next (task :: a) k = .ok (tasks ++ a) := by
  rw [next, h]

/-- **What was expected would have been taken.** -/
theorem Ready.next_sample (h : Ready limit a) (hs : a.Stuck (.expected x) ts) :
    ∃ b, a.next x.sample = .ok b := by
  induction h with
  | start =>
    rcases stuck_cons hs with ⟨k, hk⟩ | hl | ⟨-, hs⟩
    · obtain ⟨tasks, htake⟩ := Task.take_of_expects (Task.expects_of_stop hk)
      exact ⟨_, next_of_take htake []⟩
    · cases hl
    · cases ts with
      | nil => cases hs
      | cons t ts =>
        cases hs
        exact ⟨_, rfl⟩
  | cons hb ha ih =>
    rcases stuck_cons hs with ⟨k, hk⟩ | hl | ⟨hl, hs⟩
    · obtain ⟨tasks, htake⟩ := Task.take_of_expects (Task.expects_of_stop hk)
      exact ⟨_, next_of_take htake _⟩
    · obtain ⟨tasks, htake⟩ := Task.take_of_lack hl
      exact ⟨_, next_of_take htake _⟩
    · -- the task is gone past, and the token is the one that is wanted behind it
      obtain ⟨k, hk, hpass⟩ := hb.passes hl
      obtain rfl := eq_of_wants hk hs
      obtain ⟨b, hb⟩ := ih hs
      refine ⟨b, ?_⟩
      rw [Agenda.next, Expectation.sample, hpass]
      exact hb

/-- The end of the text is no token. -/
theorem Ready.kind_ne (h : Ready limit a) (hn : a.next k = .ok b) : k ≠ .endOfInput := by
  rintro rfl
  induction h with
  | start => cases hn
  | @cons task a hb ha ih =>
    rw [Agenda.next] at hn
    cases task with
    | one j =>
      have hj : Kind.endOfInput ≠ j := fun e => hb e.symm
      simp [Task.move, hj] at hn
    | statements | body | parameters | firstParameter | moreParameters | expression | moreArguments
    | optionalExpression => cases hn
    | block n => cases n <;> cases hn
    | optionalType => exact ih hn
    | optionalArguments n => cases n <;> exact ih hn

theorem Ready.kinds_ne {ks : List Kind} (h : Ready limit a) (hr : a.run ks = some b) :
    ∀ k ∈ ks, k ≠ .endOfInput := by
  induction ks generalizing a with
  | nil => simp
  | cons k ks ih =>
    obtain ⟨c, hn, hc⟩ := run_cons_eq_some.1 hr
    exact List.forall_mem_cons.2 ⟨h.kind_ne hn, ih (h.next hn) hc⟩

end Agenda

/-! ### Words -/

/-- A lexeme of each kind. -/
def Kind.word : Kind → Text
  | .number => utf8 "0"
  | .string => utf8 "''"
  | .identifier => utf8 "a"
  | .declare => Kind.spelling .declare
  | .function => Kind.spelling .function
  | .return => Kind.spelling .return
  | .const => Kind.spelling .const
  | k => k.name

theorem Kind.lexeme_word {k : Kind} (h : k ≠ .endOfInput) : Lexeme k k.word := by
  cases k with
  | endOfInput => exact absurd rfl h
  | number => exact ⟨by decide, List.forall_mem_singleton.2 rfl⟩
  | string => exact ⟨[], 39, .inr rfl, List.not_mem_nil, rfl⟩
  | identifier => exact ⟨⟨97, [], rfl, rfl⟩, List.forall_mem_singleton.2 rfl, by decide⟩
  | semicolon | colon => exact ⟨by decide, List.forall_mem_singleton.2 rfl⟩
  | _ => rfl

/-- A text of tokens of the given kinds, each on a line of its own. -/
def spell : List Kind → Text
  | [] => []
  | k :: ks => k.word ++ Text.lineFeed :: spell ks

theorem spells_spell {ks : List Kind} (h : ∀ k ∈ ks, k ≠ .endOfInput) :
    Spells (spell ks) (ks.map fun k => (k, k.word)) := by
  induction ks with
  | nil => exact .done (.none _)
  | cons k ks ih =>
    obtain ⟨hk, hks⟩ := List.forall_mem_cons.1 h
    have hstops : Stops k (Text.lineFeed :: spell ks) := by
      rintro _ ⟨⟩
      exact continues_lineFeed k
    have hbreak : Writes Always [Text.lineFeed] [] := writes_layout (by decide) (by decide)
    exact .lexeme (.none _) (Kind.lexeme_word hk) hstops (hbreak _ _ trivial (ih hks))

theorem tokenize_spell {ks : List Kind} (h : ∀ k ∈ ks, k ≠ .endOfInput) :
    (∃ o, (tokenize (spell ks)).ending = .complete o) ∧
      (tokenize (spell ks)).tokens.map Token.kind = ks := by
  obtain ⟨ts, e, hread, hts⟩ := (spells_spell h).readAll 0
  have htok : tokenize (spell ks) = ⟨ts, .complete e⟩ := congrArg Prod.fst hread
  have hkinds := congrArg (List.map Prod.fst) hts
  rw [List.map_map, List.map_map] at hkinds
  rw [htok]
  exact ⟨⟨e, rfl⟩, hkinds.trans (List.map_id ks)⟩

/-! ### Texts -/

theorem Scope.offset_failure (sc : Scope) (why : Snag) (ts : List Token) :
    (sc.failure why ts).offset = TokenRun.front ⟨ts, sc.ending⟩ := by
  obtain ⟨ending, limit⟩ := sc
  cases why <;> cases ts <;> cases ending <;> rfl

/-- What was expected at a failure; none where a level was missing or a character starts no
token. -/
def Cause.expected : Cause → Option Expectation
  | .unexpectedToken x _ | .unexpectedEnd x => some x
  | .unexpectedCharacter _ | .tooDeep _ => none

theorem Scope.stuck_of_expected {sc : Scope} {why : Snag} {ts : List Token} {x : Expectation}
    (h : (sc.failure why ts).cause.expected = some x) : why = .expected x := by
  obtain ⟨ending, limit⟩ := sc
  cases why <;> cases ts <;> cases ending <;> cases h <;> rfl

section Texts

variable {maxDepth : Int} {src : Text} {f : Failure}

/-- A failure stands behind tokens that are read without a snag. -/
theorem exists_run_of_error (h : parse maxDepth src = .error f) :
    ∃ before after b, tokenize src = ⟨before ++ after, (tokenize src).ending⟩ ∧
      f.offset = TokenRun.front ⟨after, (tokenize src).ending⟩ ∧
      (Agenda.start (depthLimit maxDepth)).run (before.map Token.kind) = some b ∧
      ∀ x, f.cause.expected = some x → b.Stuck (.expected x) after := by
  rcases parse_eq_error_iff.1 h with ⟨why, after, hs, rfl⟩ | ⟨u, hs, hu, rfl⟩
  · obtain ⟨before, b, htok, hrun, hstuck⟩ := Agenda.exists_run_of_snag hs
    refine ⟨before, after, b, by rw [← htok], Scope.offset_failure _ why after, hrun,
      fun x hx => ?_⟩
    rw [← Scope.stuck_of_expected hx]
    exact hstuck
  · obtain ⟨b, hrun, -⟩ := Agenda.snag_eq_none_iff.1 hs
    refine ⟨(tokenize src).tokens, [], b, by rw [List.append_nil], ?_, hrun,
      fun x hx => by cases hx⟩
    rw [hu]
    rfl

theorem depthLimit_succ (h : 1 ≤ maxDepth) :
    depthLimit (maxDepth + 1) = depthLimit maxDepth + 1 := by
  rw [depthLimit, depthLimit, if_neg (by omega), if_neg (by omega)]
  omega

/-- If tokens before a place and some more are read without a snag, then the text before that place
goes on with these to a program. -/
theorem exists_parse_spell (hD : 1 ≤ maxDepth) {before after : List Token} {ending : Ending}
    {ks : List Kind} {b : Agenda} (htok : tokenize src = ⟨before ++ after, ending⟩)
    (hrun : (Agenda.start (depthLimit maxDepth)).run (before.map Token.kind ++ ks) = some b) :
    ∃ p, parse (maxDepth + 1)
      (src.take (TokenRun.front ⟨after, ending⟩) ++ Text.lineFeed :: spell (ks ++ b.closing)) =
        .ok p := by
  have hclosed := Agenda.run_start_closing hrun
  rw [← depthLimit_succ hD, List.append_assoc] at hclosed
  have hne : ∀ k ∈ ks ++ b.closing, k ≠ .endOfInput := fun k hk =>
    Agenda.Ready.kinds_ne .start hclosed k (List.mem_append_right _ hk)
  obtain ⟨⟨o, ho⟩, hkinds⟩ := tokenize_spell hne
  obtain ⟨-, htake⟩ := tokenize_take htok
  have hwhole := tokenize_append_of_complete (congrArg TokenRun.ending htake)
    (spell (ks ++ b.closing))
  rw [htake, ho] at hwhole
  rw [exists_parse_iff, snag, hwhole]
  refine ⟨⟨_, rfl⟩, Agenda.snag_eq_none_iff.2 ⟨Agenda.start (depthLimit (maxDepth + 1)), ?_, rfl⟩⟩
  rw [← hclosed, List.map_append, List.map_map]
  exact congrArg _ (congrArg _ hkinds)

/-- The text before a failure begins a program. -/
theorem exists_parse_take (hD : 1 ≤ maxDepth) (h : parse maxDepth src = .error f) :
    ∃ t p, parse (maxDepth + 1) (src.take f.offset ++ Text.lineFeed :: t) = .ok p := by
  obtain ⟨before, after, b, htok, hoffset, hrun, -⟩ := exists_run_of_error h
  rw [← List.append_nil (before.map Token.kind)] at hrun
  rw [hoffset]
  exact ⟨_, exists_parse_spell hD htok hrun⟩

/-- The text before a failure goes on with what was expected. -/
theorem exists_parse_take_expected (hD : 1 ≤ maxDepth) (h : parse maxDepth src = .error f)
    {x : Expectation} (hx : f.cause.expected = some x) :
    ∃ w t p, Lexeme x.sample w ∧
      parse (maxDepth + 1) (src.take f.offset ++ Text.lineFeed :: (w ++ Text.lineFeed :: t)) =
        .ok p := by
  obtain ⟨before, after, b, htok, hoffset, hrun, hstuck⟩ := exists_run_of_error h
  have hready : b.Ready _ := Agenda.Ready.run .start hrun
  obtain ⟨c, hnext⟩ := hready.next_sample (hstuck x hx)
  have hrun' : (Agenda.start (depthLimit maxDepth)).run (before.map Token.kind ++ [x.sample]) =
      some c := by
    rw [Agenda.run_append hrun, Agenda.run_of_next hnext]
    rfl
  rw [hoffset]
  exact ⟨x.sample.word, spell c.closing, (exists_parse_spell hD htok hrun').imp fun p hp =>
    ⟨Kind.lexeme_word (hready.kind_ne hnext), hp⟩⟩

theorem offset_position (h : parse maxDepth src = .error f) (name : Text) :
    (f.position ⟨name, src⟩).offset = f.offset := by
  obtain ⟨before, after, b, htok, hoffset, -, -⟩ := exists_run_of_error h
  have hle := (tokenize_take htok).1
  rw [← hoffset] at hle
  show min (f.offset : Int).toNat src.length = f.offset
  omega

/-- **Failures stand at the first possible place, and name what would have been accepted.** With one
level more, the text before the failure begins a program, and where something was expected it goes
on with that. -/
theorem parse_error_viable (hD : 1 ≤ maxDepth) (h : parse maxDepth src = .error f) (name : Text) :
    match f.cause with
    | .unexpectedCharacter _ | .tooDeep _ =>
      ∃ t p, parse (maxDepth + 1)
        (src.take (f.position ⟨name, src⟩).offset ++ Text.lineFeed :: t) = .ok p
    | .unexpectedToken x _ | .unexpectedEnd x =>
      ∃ w t p, Lexeme x.sample w ∧ parse (maxDepth + 1)
        (src.take (f.position ⟨name, src⟩).offset ++ Text.lineFeed :: (w ++ Text.lineFeed :: t)) =
          .ok p := by
  rw [offset_position h name]
  cases hc : f.cause with
  | unexpectedCharacter c => exact exists_parse_take hD h
  | tooDeep n => exact exists_parse_take hD h
  | unexpectedToken x t => exact exists_parse_take_expected hD h (by rw [hc]; rfl)
  | unexpectedEnd x => exact exists_parse_take_expected hD h (by rw [hc]; rfl)

end Texts

theorem parse_error_viable_assign :
    parse 1 (utf8 "const a: T 1;") =
        .error ⟨11, .unexpectedToken (.kind .assign) ⟨.number, utf8 "1", 11, 12⟩⟩ ∧
      (∃ w t p, Lexeme .assign w ∧
        parse 2 ((utf8 "const a: T 1;").take 11 ++ Text.lineFeed :: (w ++ Text.lineFeed :: t)) =
          .ok p) ∧
      parse 1 (utf8 "f(g(1));") = .error ⟨3, .tooDeep 1⟩ ∧
      ∃ t p, parse 2 ((utf8 "f(g(1));").take 3 ++ Text.lineFeed :: t) = .ok p := by
  have hassign : parse 1 (utf8 "const a: T 1;") =
      .error ⟨11, .unexpectedToken (.kind .assign) ⟨.number, utf8 "1", 11, 12⟩⟩ :=
    eq_error_of_map (by decide +kernel)
  have hdeep : parse 1 (utf8 "f(g(1));") = .error ⟨3, .tooDeep 1⟩ :=
    eq_error_of_map (by decide +kernel)
  exact ⟨hassign, parse_error_viable (by decide) hassign [], hdeep,
    parse_error_viable (by decide) hdeep []⟩

end Scriptlet
