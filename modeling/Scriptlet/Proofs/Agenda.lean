import Mathlib.Tactic.Common
import Scriptlet.Parse

/-!
# The parser as a machine

Parsing one token at a time. The agenda of the parser is the list of what it is still to read, and
each token takes the agenda to the next one, or is in the way: it is not what was expected, or one
level too deep. Tokens are told by their kind alone. Running the agenda over tokens fails exactly
where the parser fails, and for the same reason (`verdict_statements`), so what is said of one step
of the agenda carries over to every failure of the parser.
-/

namespace Scriptlet

/-- Something the parser is still to read. A number says how many more levels may be opened in
it. -/
inductive Task where
  /-- A token of a kind. -/
  | one (k : Kind)
  /-- Statements up to the end of the text. -/
  | statements (n : Nat)
  /-- Statements up to a closing brace, and that brace. -/
  | body (n : Nat)
  /-- A block; to open it takes one of the levels. -/
  | block (n : Nat)
  /-- A type, if a colon comes next. -/
  | optionalType
  /-- Parameters between parentheses. -/
  | parameters
  /-- The first parameter, if there is one, and the rest up to the closing parenthesis. -/
  | firstParameter
  /-- The parameters after one, up to the closing parenthesis. -/
  | moreParameters
  /-- An expression. -/
  | expression (n : Nat)
  /-- The arguments of a call, if a parenthesis comes next; to open them takes one of the levels. -/
  | optionalArguments (n : Nat)
  /-- The arguments after one, up to the closing parenthesis. -/
  | moreArguments (n : Nat)
  /-- An expression, unless a semicolon comes next. -/
  | optionalExpression (n : Nat)
  deriving DecidableEq

/-- Why the parser cannot go on. -/
inductive Snag where
  /-- Something else was expected. -/
  | expected (x : Expectation)
  /-- One level too many would be opened. -/
  | tooDeep
  deriving DecidableEq

/-- What a task does with the next token. -/
inductive Move where
  /-- The token is taken, and the task becomes other tasks. -/
  | take (tasks : List Task)
  /-- The token is left to the next task. -/
  | pass
  /-- The token is in the way. -/
  | stop (why : Snag)

/-- What is left of an expression after its first token; none if no expression starts with that. -/
def expressionTasks (n : Nat) : Kind → Option (List Task)
  | .identifier => some [.optionalArguments n]
  | .number | .string => some []
  | _ => none

/-- What is left of a statement after its first token; none if no statement starts with that. -/
def statementTasks (n : Nat) : Kind → Option (List Task)
  | .function => some [.one .identifier, .parameters, .optionalType, .block n]
  | .declare =>
    some [.one .function, .one .identifier, .parameters, .one .colon, .one .identifier,
      .one .semicolon]
  | .const => some [.one .identifier, .optionalType, .one .assign, .expression n, .one .semicolon]
  | .return => some [.optionalExpression n, .one .semicolon]
  | k => (expressionTasks n k).map (· ++ [.one .semicolon])

/-- The move to tasks that may not exist. -/
def Move.ofOption (x : Expectation) : Option (List Task) → Move
  | some tasks => .take tasks
  | none => .stop (.expected x)

namespace Move

variable {x : Expectation} {o : Option (List Task)}

@[simp] theorem ofOption_eq_take {tasks : List Task} : ofOption x o = .take tasks ↔
    o = some tasks := by
  cases o <;> simp [ofOption]

@[simp] theorem ofOption_ne_pass : ofOption x o ≠ .pass := by
  cases o <;> simp [ofOption]

@[simp] theorem ofOption_eq_stop {why : Snag} : ofOption x o = .stop why ↔
    o = none ∧ .expected x = why := by
  cases o <;> simp [ofOption]

end Move

namespace Task

/-- What a task does with a token of the kind `k`. -/
def move : Task → Kind → Move
  | one j, k => if k = j then .take [] else .stop (.expected (.kind j))
  | statements n, k => .ofOption .statement ((statementTasks n k).map (· ++ [statements n]))
  | body n, k =>
    if k = .closeBrace then .take []
    else .ofOption .statement ((statementTasks n k).map (· ++ [body n]))
  | block 0, _ => .stop .tooDeep
  | block (n + 1), k => if k = .openBrace then .take [body n]
      else .stop (.expected (.kind .openBrace))
  | optionalType, k => if k = .colon then .take [one .identifier] else .pass
  | parameters, k => if k = .openParen then .take [firstParameter]
      else .stop (.expected (.kind .openParen))
  | firstParameter, k =>
    if k = .closeParen then .take []
    else if k = .identifier then .take [optionalType, moreParameters]
    else .stop (.expected (.kind .identifier))
  | moreParameters, k =>
    if k = .comma then .take [one .identifier, optionalType, moreParameters]
    else if k = .closeParen then .take []
    else .stop (.expected (.kind .closeParen))
  | expression n, k => .ofOption .expression (expressionTasks n k)
  | optionalArguments 0, k => if k = .openParen then .stop .tooDeep else .pass
  | optionalArguments (n + 1), k => if k = .openParen then .take [expression n, moreArguments n]
      else .pass
  | moreArguments n, k =>
    if k = .comma then .take [expression n, moreArguments n]
    else if k = .closeParen then .take []
    else .stop (.expected (.kind .closeParen))
  | optionalExpression n, k =>
    if k = .semicolon then .pass else .ofOption .expression (expressionTasks n k)

/-- What a task lacks when the tokens are used up; none if it may be left undone. -/
def lack : Task → Option Snag
  | one k => some (.expected (.kind k))
  | statements _ => none
  | body _ => some (.expected (.kind .closeBrace))
  | block 0 => some .tooDeep
  | block (_ + 1) => some (.expected (.kind .openBrace))
  | optionalType => none
  | parameters => some (.expected (.kind .openParen))
  | firstParameter => some (.expected (.kind .identifier))
  | moreParameters => some (.expected (.kind .closeParen))
  | expression _ => some (.expected .expression)
  | optionalArguments _ => none
  | moreArguments _ => some (.expected (.kind .closeParen))
  | optionalExpression _ => none

end Task

/-- What is still to be read, the next task first. -/
abbrev Agenda := List Task

namespace Agenda

/-- The agenda after a token of the kind `k`. -/
def next : Agenda → Kind → Except Snag Agenda
  | [], _ => .error (.expected .statement)
  | task :: rest, k =>
    match task.move k with
    | .take tasks => .ok (tasks ++ rest)
    | .pass => next rest k
    | .stop why => .error why

/-- What an agenda lacks when the tokens are used up. -/
def lack (a : Agenda) : Option Snag := a.findSome? Task.lack

/-- The first snag on the way through the tokens, and the tokens from there on. -/
def snag (a : Agenda) : List Token → Option (Snag × List Token)
  | [] => a.lack.map (·, [])
  | t :: ts =>
    match a.next t.kind with
    | .ok b => snag b ts
    | .error why => some (why, t :: ts)

/-- The agenda after tokens of the given kinds, if none of them is in the way. -/
def run (a : Agenda) : List Kind → Option Agenda
  | [] => some a
  | k :: ks =>
    match a.next k with
    | .ok b => run b ks
    | .error _ => none

variable {a b : Agenda}

theorem snag_of_next {t : Token} (h : a.next t.kind = .ok b) (ts : List Token) :
    a.snag (t :: ts) = b.snag ts := by
  rw [snag, h]

theorem snag_of_stop {t : Token} {why : Snag} (h : a.next t.kind = .error why) (ts : List Token) :
    a.snag (t :: ts) = some (why, t :: ts) := by
  rw [snag, h]

theorem run_of_next {k : Kind} (h : a.next k = .ok b) (ks : List Kind) :
    a.run (k :: ks) = b.run ks := by
  rw [run, h]

/-- A task takes the token, or goes past it and leaves it to the rest. -/
theorem next_cons_eq_ok {task : Task} {k : Kind} :
    next (task :: a) k = .ok b ↔
      (∃ tasks, task.move k = .take tasks ∧ tasks ++ a = b) ∨ task.move k = .pass ∧
        a.next k = .ok b := by
  rw [next]
  cases task.move k <;> simp

theorem run_cons_eq_some {k : Kind} {ks : List Kind} :
    a.run (k :: ks) = some b ↔ ∃ c, a.next k = .ok c ∧ c.run ks = some b := by
  rw [run]
  cases a.next k <;> simp

/-- What every token keeps is kept by a run. -/
theorem run_invariant {P : Agenda → Prop} (hstep : ∀ {a b k}, a.next k = .ok b → P a → P b)
    {ks : List Kind} (hr : a.run ks = some b) (h : P a) : P b := by
  induction ks generalizing a with
  | nil => exact Option.some.inj hr ▸ h
  | cons k ks ih =>
    obtain ⟨c, hn, hc⟩ := run_cons_eq_some.1 hr
    exact ih hc (hstep hn h)

theorem run_append {ks : List Kind} (h : a.run ks = some b) (ks' : List Kind) :
    a.run (ks ++ ks') = b.run ks' := by
  induction ks generalizing a with
  | nil => rw [List.nil_append, Option.some.inj h]
  | cons k ks ih =>
    obtain ⟨c, hn, hc⟩ := run_cons_eq_some.1 h
    rw [List.cons_append, run_of_next hn, ih hc]

/-- Behind tokens that are not in the way, the snag is that of the agenda after them. -/
theorem snag_append {before : List Token} (h : a.run (before.map Token.kind) = some b)
    (after : List Token) : a.snag (before ++ after) = b.snag after := by
  induction before generalizing a with
  | nil =>
    obtain rfl := Option.some.inj h
    rfl
  | cons t before ih =>
    obtain ⟨c, hn, hc⟩ := run_cons_eq_some.1 h
    rw [List.cons_append, snag_of_next hn, ih hc]

/-- What is in the way: the agenda cannot go on with the first token, or lacks something at the
end. -/
def Stuck (a : Agenda) (why : Snag) : List Token → Prop
  | [] => a.lack = some why
  | t :: _ => a.next t.kind = .error why

/-- Before a snag there are tokens that are not in the way, and the agenda after them is stuck. -/
theorem exists_run_of_snag {ts after : List Token} {why : Snag}
    (h : a.snag ts = some (why, after)) :
    ∃ before b, ts = before ++ after ∧ a.run (before.map Token.kind) = some b ∧
      b.Stuck why after := by
  induction ts generalizing a with
  | nil =>
    obtain ⟨_, hl, he⟩ := Option.map_eq_some_iff.1 h
    obtain ⟨rfl, rfl⟩ := Prod.mk.inj he
    exact ⟨[], a, rfl, rfl, hl⟩
  | cons t ts ih =>
    cases hn : a.next t.kind with
    | error why' =>
      rw [snag_of_stop hn] at h
      obtain ⟨rfl, rfl⟩ := Prod.mk.inj (Option.some.inj h)
      exact ⟨[], a, rfl, rfl, hn⟩
    | ok b =>
      rw [snag_of_next hn] at h
      obtain ⟨before, c, rfl, hrun, hc⟩ := ih h
      exact ⟨t :: before, c, rfl, by rw [List.map_cons, run_of_next hn, hrun], hc⟩

/-- Where there is no snag the agenda after the tokens lacks nothing. -/
theorem snag_eq_none_iff {ts : List Token} :
    a.snag ts = none ↔ ∃ b, a.run (ts.map Token.kind) = some b ∧ b.lack = none := by
  induction ts generalizing a with
  | nil => simp [snag, run]
  | cons t ts ih =>
    cases hn : a.next t.kind with
    | error why => simp [snag, run, hn]
    | ok b => rw [snag_of_next hn, List.map_cons, run_of_next hn, ih]

/-- Tokens are told by their kind alone. -/
theorem snag_map {φ : Token → Token} (hφ : ∀ t, (φ t).kind = t.kind) (ts : List Token) :
    a.snag (ts.map φ) = (a.snag ts).map (Prod.map id (List.map φ)) := by
  induction ts generalizing a with
  | nil => cases h : a.lack <;> simp [snag, h]
  | cons t ts ih =>
    cases hn : a.next t.kind with
    | error why => rw [List.map_cons, snag_of_stop ((hφ t).symm ▸ hn), snag_of_stop hn]; rfl
    | ok b => rw [List.map_cons, snag_of_next ((hφ t).symm ▸ hn), snag_of_next hn, ih]

/-- Tokens of the same kinds have the same snag, with as many tokens from there on. -/
theorem snag_of_kinds {ts ts' : List Token} (h : ts.map Token.kind = ts'.map Token.kind) :
    (a.snag ts).map (Prod.map id List.length) = (a.snag ts').map (Prod.map id List.length) := by
  let φ (t : Token) : Token := ⟨t.kind, [], 0, 0⟩
  have hkind (t : Token) : (φ t).kind = t.kind := rfl
  have hlength (ts : List Token) : (a.snag (ts.map φ)).map (Prod.map id List.length) =
      (a.snag ts).map (Prod.map id List.length) := by
    rw [snag_map hkind, Option.map_map]
    congr 1
    funext e
    simp [Prod.map]
  have hmap (ts : List Token) : ts.map φ = (ts.map Token.kind).map fun k => ⟨k, [], 0, 0⟩ := by
    rw [List.map_map]
    rfl
  rw [← hlength ts, ← hlength ts', hmap, hmap, h]

end Agenda

namespace Scope

variable (sc : Scope)

/-- The failure of a snag at the front of tokens. -/
def failure : Snag → List Token → Failure
  | .expected x, ts => sc.unexpected x ts
  | .tooDeep, ts => sc.tooDeep ts

/-- Behind the last token a character that starts no token is in the way, whatever is expected. -/
theorem failure_nil_of_unreadable {u : Unreadable} (h : sc.ending = .unreadable u) (why : Snag) :
    sc.failure why [] = ⟨u.offset, .unexpectedCharacter u.character⟩ := by
  cases why <;> simp [failure, unexpected, tooDeep, failAt, h]

theorem failure_nil_of_complete {o : Nat} (h : sc.ending = .complete o) (x : Expectation) :
    sc.failure (.expected x) [] = ⟨o, .unexpectedEnd x⟩ := by
  simp [failure, unexpected, failAt, h]

/-- Do the tokens and what comes after them fill the agenda? -/
def verdict (a : Agenda) (ts : List Token) : Except Failure Unit :=
  match a.snag ts with
  | some (why, rest) => .error (sc.failure why rest)
  | none =>
    match sc.ending with
    | .complete _ => .ok ()
    | .unreadable u => .error ⟨u.offset, .unexpectedCharacter u.character⟩

theorem verdict_eq_ok_iff {a : Agenda} {ts : List Token} :
    sc.verdict a ts = .ok () ↔ (∃ o, sc.ending = .complete o) ∧ a.snag ts = none := by
  rw [verdict]
  cases a.snag ts with
  | some e => simp
  | none => cases sc.ending <;> simp

theorem verdict_eq_error_iff {a : Agenda} {ts : List Token} {f : Failure} :
    sc.verdict a ts = .error f ↔
      (∃ why rest, a.snag ts = some (why, rest) ∧ sc.failure why rest = f) ∨
        ∃ u, a.snag ts = none ∧ sc.ending = .unreadable u ∧
          ⟨u.offset, .unexpectedCharacter u.character⟩ = f := by
  rw [verdict]
  cases a.snag ts with
  | some e =>
    obtain ⟨why, rest⟩ := e
    simp [and_assoc]
  | none => cases sc.ending <;> simp

section

variable (task : Task) (a : Agenda) (t : Token) (ts : List Token)

theorem verdict_cons_token : sc.verdict (task :: a) (t :: ts) =
    match task.move t.kind with
    | .take tasks => sc.verdict (tasks ++ a) ts
    | .pass => sc.verdict a (t :: ts)
    | .stop why => .error (sc.failure why (t :: ts)) := by
  rw [verdict, Agenda.snag, Agenda.next]
  cases task.move t.kind <;> rfl

theorem verdict_cons_nil : sc.verdict (task :: a) [] =
    match task.lack with
    | some why => .error (sc.failure why [])
    | none => sc.verdict a [] := by
  rw [verdict, Agenda.snag, Agenda.lack, List.findSome?_cons]
  cases task.lack <;> rfl

end

/-- The step does what the tasks ask for: it fails where they cannot be done, and leaves the tokens
that they leave. -/
def Does {α : Type} (p : Step α) (tasks : Agenda) : Prop :=
  ∀ a ts, sc.verdict (tasks ++ a) ts = p ts >>= fun r => sc.verdict a r.rest

variable {sc}

theorem Does.bind {α : Type} {p : Step α} {tasks : Agenda} (h : sc.Does p tasks) (a : Agenda)
    (ts : List Token) : (p ts >>= fun r => sc.verdict a r.rest) = sc.verdict (tasks ++ a) ts :=
  (h a ts).symm

theorem verdict_one (k : Kind) (a : Agenda) (ts : List Token) :
    sc.verdict (.one k :: a) ts = sc.expect k ts >>= fun t => sc.verdict a t.rest := by
  cases ts with
  | nil => exact sc.verdict_cons_nil _ a
  | cons t ts =>
    rw [verdict_cons_token, Task.move, expect]
    by_cases h : t.kind = k <;> simp only [h, if_true, if_false] <;> rfl

theorem does_expect (k : Kind) : sc.Does (sc.expect k) [.one k] := verdict_one k

/-! ### Names and types -/

theorem does_name (sc : Scope) : sc.Does sc.name [.one .identifier] := by
  intro a ts
  simp only [name, bind_assoc, pure_bind]
  exact does_expect .identifier a ts

theorem does_type (sc : Scope) : sc.Does sc.type [.one .colon, .one .identifier] := by
  intro a ts
  simp only [type, bind_assoc, pure_bind, (does_expect _).bind]
  rfl

/-- A type is read if a colon comes next, and otherwise nothing is. -/
theorem verdict_optionalType (a : Agenda) (ts : List Token) :
    sc.verdict (.optionalType :: a) ts =
      if startsWithKind .colon ts then sc.verdict (.one .colon :: .one .identifier :: a) ts
      else sc.verdict a ts := by
  cases ts with
  | nil => exact sc.verdict_cons_nil _ a
  | cons t ts =>
    simp only [verdict_cons_token, Task.move, startsWithKind, decide_eq_true_eq]
    by_cases h : t.kind = .colon <;> simp [h]

theorem does_typedName (sc : Scope) : sc.Does sc.typedName [.one .identifier, .optionalType] := by
  intro a ts
  have hname := does_name sc (.optionalType :: a) ts
  simp only [List.cons_append, List.nil_append] at hname ⊢
  rw [hname, typedName, bind_assoc]
  refine bind_congr fun id => ?_
  rw [verdict_optionalType]
  split
  · simp only [bind_assoc, pure_bind, (does_type sc).bind]
    rfl
  · rfl

/-! ### Lists -/

/-- What follows an element of a list goes on with a comma and the next element, and otherwise asks
for the closing parenthesis. -/
structure Continues (more : Task) (tasks : Agenda) : Prop where
  move : ∀ k, more.move k = if k = .comma then .take (tasks ++ [more])
    else Task.move (.one .closeParen) k
  lack : more.lack = Task.lack (.one .closeParen)

theorem continues_moreParameters : Continues .moreParameters [.one .identifier, .optionalType] :=
  ⟨fun _ => rfl, rfl⟩

theorem continues_moreArguments (n : Nat) : Continues (.moreArguments n) [.expression n] :=
  ⟨fun _ => rfl, rfl⟩

theorem verdict_commaList {α : Type} {p : Step α} {tasks : Agenda} {more : Task}
    (hp : sc.Does p tasks) (hmore : Continues more tasks) (a : Agenda) (ts : List Token) :
    sc.verdict (tasks ++ more :: a) ts =
      commaList p ts >>= fun l => sc.verdict (.one .closeParen :: a) l.rest := by
  induction hn : ts.length using Nat.strongRecOn generalizing ts with
  | ind n ih =>
    rw [hp (more :: a) ts, commaList]
    cases p ts with
    | error f => rfl
    | ok r =>
      obtain ⟨v, mid, h⟩ := r
      cases mid with
      | nil =>
        show sc.verdict (more :: a) [] = sc.verdict (.one .closeParen :: a) []
        rw [verdict_cons_nil, verdict_cons_nil, hmore.lack]
      | cons c mid =>
        show sc.verdict (more :: a) (c :: mid) = _
        rw [verdict_cons_token, hmore.move]
        by_cases hc : c.kind = .comma
        · rw [List.length_cons] at h
          have hmid := ih mid.length (by omega) mid rfl
          simp only [hc, if_true, List.append_assoc, List.singleton_append]
          rw [hmid]
          cases commaList p mid <;> rfl
        · simp only [hc, if_false]
          exact (sc.verdict_cons_token (.one .closeParen) a c mid).symm

theorem verdict_parameters (a : Agenda) (ts : List Token) :
    sc.verdict (.parameters :: a) ts = sc.verdict (.one .openParen :: .firstParameter :: a) ts := by
  cases ts with
  | nil => rw [verdict_cons_nil, verdict_cons_nil]; rfl
  | cons t ts =>
    simp only [verdict_cons_token, Task.move]
    by_cases h : t.kind = .openParen <;> simp [h]

theorem verdict_firstParameter (a : Agenda) (ts : List Token) :
    sc.verdict (.firstParameter :: a) ts =
      if startsWithKind .closeParen ts then sc.verdict (.one .closeParen :: a) ts
      else sc.verdict (.one .identifier :: .optionalType :: .moreParameters :: a) ts := by
  cases ts with
  | nil => simp only [startsWithKind, Bool.false_eq_true, if_false, verdict_cons_nil, Task.lack]
  | cons t ts =>
    simp only [verdict_cons_token, Task.move, startsWithKind, decide_eq_true_eq]
    by_cases h : t.kind = .closeParen
    · simp [h]
    · by_cases h' : t.kind = .identifier <;> simp [h, h']

theorem does_parameters (sc : Scope) : sc.Does sc.parameters [.parameters] := by
  intro a ts
  rw [List.singleton_append, verdict_parameters, verdict_one, parameters, bind_assoc]
  refine bind_congr fun o => ?_
  rw [verdict_firstParameter]
  split
  · simp only [bind_assoc, pure_bind, (does_expect _).bind]
    rfl
  · have hlist := verdict_commaList (does_typedName sc) continues_moreParameters a o.rest
    simp only [bind_assoc, pure_bind, (does_expect _).bind]
    exact hlist

/-! ### Expressions -/

theorem bind_arguments {p : Step Expression} {n : Nat} (hp : sc.Does p [.expression n]) (a : Agenda)
    (ts : List Token) :
    (sc.arguments p ts >>= fun r => sc.verdict a r.rest) =
      sc.verdict (.one .openParen :: .expression n :: .moreArguments n :: a) ts := by
  rw [arguments, bind_assoc, verdict_one]
  refine bind_congr fun o => ?_
  have hlist := verdict_commaList hp (continues_moreArguments n) a o.rest
  simp only [bind_assoc, pure_bind, (does_expect _).bind]
  exact hlist.symm

/-- An expression is read as the task asks if the arguments of a call are. -/
theorem does_expressionWith {args : Step (List Expression × Token)} {n : Nat}
    (h : ∀ a t ts, t.kind = .openParen →
      sc.verdict (.optionalArguments n :: a) (t :: ts) =
        args (t :: ts) >>= fun r => sc.verdict a r.rest) :
    sc.Does (sc.expressionWith args) [.expression n] := by
  intro a ts
  cases ts with
  | nil => exact sc.verdict_cons_nil _ a
  | cons t ts =>
    rw [List.singleton_append, verdict_cons_token, Task.move]
    cases hk : t.kind with
    | identifier =>
      simp only [expressionWith, hk, expressionTasks, Move.ofOption, List.singleton_append]
      cases ts with
      | nil => exact sc.verdict_cons_nil _ a
      | cons u ts =>
        by_cases hu : u.kind = .openParen
        · simp only [startsWithKind, hu, decide_true, if_true, bind_assoc, pure_bind]
          exact h a u ts hu
        · have hmove : (Task.optionalArguments n).move u.kind = .pass := by
            cases n <;> exact if_neg hu
          rw [verdict_cons_token, hmove]
          simp [startsWithKind, hu]
    | number | string => simp only [expressionWith, hk]; rfl
    | _ => simp only [expressionWith, hk]; rfl

theorem does_expression (sc : Scope) (n : Nat) : sc.Does (sc.expression n) [.expression n] := by
  induction n with
  | zero =>
    refine does_expressionWith fun a t ts ht => ?_
    rw [verdict_cons_token, Task.move, if_pos ht]
    rfl
  | succ n ih =>
    refine does_expressionWith fun a t ts ht => ?_
    rw [bind_arguments ih, verdict_cons_token, verdict_cons_token, Task.move, Task.move, if_pos ht,
      if_pos ht]
    rfl

/-! ### Statements -/

theorem Does.terminated {p : Step Statement} {tasks : Agenda} (h : sc.Does p tasks) :
    sc.Does (sc.terminated p) (tasks ++ [.one .semicolon]) := by
  intro a ts
  rw [List.append_assoc, List.singleton_append, h (.one .semicolon :: a) ts]
  simp only [Scope.terminated, bind_assoc, pure_bind, verdict_one]

theorem does_declaration (sc : Scope) :
    sc.Does sc.declaration
      [.one .declare, .one .function, .one .identifier, .parameters, .one .colon,
        .one .identifier] := by
  intro a ts
  simp only [declaration, bind_assoc, pure_bind, (does_type sc).bind, (does_parameters sc).bind,
    (does_name sc).bind, (does_expect _).bind]
  rfl

theorem does_definition {body : Step (Span × List Statement)} {n : Nat}
    (h : sc.Does body [.block n]) : sc.Does (sc.definition body)
      [.one .function, .one .identifier, .parameters, .optionalType, .block n] := by
  intro a ts
  have hparams (us : List Token) :
      sc.verdict (.parameters :: .optionalType :: .block n :: a) us = _ :=
    does_parameters sc _ us
  have hname (us : List Token) :
      sc.verdict (.one .identifier :: .parameters :: .optionalType :: .block n :: a) us = _ :=
    does_name sc _ us
  simp only [List.cons_append, List.nil_append, verdict_one .function]
  rw [definition, bind_assoc]
  refine bind_congr fun f => ?_
  rw [hname, bind_assoc]
  refine bind_congr fun id => ?_
  rw [hparams, bind_assoc]
  refine bind_congr fun ps => ?_
  rw [verdict_optionalType]
  split
  · simp only [bind_assoc, pure_bind, h.bind, (does_type sc).bind]
    rfl
  · simp only [bind_assoc, pure_bind, h.bind]
    rfl

theorem does_constant {expr : Step Expression} {n : Nat} (h : sc.Does expr [.expression n]) :
    sc.Does (sc.constant expr)
      [.one .const, .one .identifier, .optionalType, .one .assign, .expression n] := by
  intro a ts
  simp only [constant, bind_assoc, pure_bind, h.bind, (does_typedName sc).bind,
    (does_expect _).bind]
  rfl

/-- A value is read unless the end or a semicolon comes next. -/
theorem verdict_optionalExpression (n : Nat) (a : Agenda) (ts : List Token) :
    sc.verdict (.optionalExpression n :: a) ts =
      if ts.isEmpty || startsWithKind .semicolon ts then sc.verdict a ts
      else sc.verdict (.expression n :: a) ts := by
  cases ts with
  | nil => exact sc.verdict_cons_nil _ a
  | cons t ts =>
    simp only [verdict_cons_token, Task.move, startsWithKind, List.isEmpty_cons, Bool.false_or,
      decide_eq_true_eq]
    by_cases h : t.kind = .semicolon <;> simp [h]

theorem does_returning {expr : Step Expression} {n : Nat} (h : sc.Does expr [.expression n]) :
    sc.Does (sc.returning expr) [.one .return, .optionalExpression n] := by
  intro a ts
  simp only [List.cons_append, List.nil_append, verdict_one]
  rw [returning, bind_assoc]
  refine bind_congr fun k => ?_
  rw [verdict_optionalExpression]
  split
  · rfl
  · simp only [bind_assoc, pure_bind, h.bind]
    rfl

theorem does_expressionStatement {expr : Step Expression} {n : Nat}
    (h : sc.Does expr [.expression n]) : sc.Does (expressionStatement expr) [.expression n] := by
  intro a ts
  simp only [expressionStatement, bind_assoc, pure_bind]
  exact h a ts

/-- The step reads a statement, as the first token of it asks. -/
def DoesStatement (sc : Scope) (p : Step Statement) (n : Nat) : Prop :=
  ∀ a t ts, (p (t :: ts) >>= fun r => sc.verdict a r.rest) =
    match statementTasks n t.kind with
    | some tasks => sc.verdict (tasks ++ a) ts
    | none => .error (sc.unexpected .statement (t :: ts))

theorem doesStatement_statementWith {expr : Step Expression} {body : Step (Span × List Statement)}
    {n : Nat} (he : sc.Does expr [.expression n]) (hb : sc.Does body [.block n]) :
    sc.DoesStatement (sc.statementWith expr body) n := by
  intro a t ts
  -- a statement that starts with a keyword asks for that first
  have keyword {p : Step Statement} {k : Kind} {tasks : Agenda} (hk : t.kind = k)
      (h : sc.Does p (.one k :: tasks)) :
      (p (t :: ts) >>= fun r => sc.verdict a r.rest) = sc.verdict (tasks ++ a) ts := by
    rw [h.bind, List.cons_append, verdict_cons_token, Task.move, if_pos hk]
    rfl
  have expression {tasks : Agenda} (hk : expressionTasks n t.kind = some tasks) :
      (sc.terminated (expressionStatement expr) (t :: ts) >>= fun r => sc.verdict a r.rest) =
        sc.verdict ((tasks ++ [.one .semicolon]) ++ a) ts := by
    rw [(does_expressionStatement he).terminated.bind, List.append_assoc, List.singleton_append,
      verdict_cons_token, Task.move, hk, List.append_assoc]
    rfl
  cases hk : t.kind with
  | function =>
    simp only [statementWith, hk, statementTasks]
    exact keyword hk (does_definition hb)
  | declare =>
    simp only [statementWith, hk, statementTasks]
    exact keyword hk (does_declaration sc).terminated
  | const =>
    simp only [statementWith, hk, statementTasks]
    exact keyword hk (does_constant he).terminated
  | «return» =>
    simp only [statementWith, hk, statementTasks]
    exact keyword hk (does_returning he).terminated
  | identifier | number | string =>
    simp only [statementWith, hk]
    exact expression (by rw [hk]; rfl)
  | _ =>
    simp only [statementWith, hk]
    rfl

/-- A task that asks for statements reads one and then asks again. -/
theorem DoesStatement.verdict_again {p : Step Statement} {n : Nat} (hp : sc.DoesStatement p n)
    (again : Task) {t : Token}
    (h : again.move t.kind = .ofOption .statement ((statementTasks n t.kind).map (· ++ [again])))
    (a : Agenda) (ts : List Token) :
    sc.verdict (again :: a) (t :: ts) =
      p (t :: ts) >>= fun r => sc.verdict (again :: a) r.rest := by
  rw [hp, verdict_cons_token, h]
  cases statementTasks n t.kind with
  | none => rfl
  | some tasks =>
    simp only [Option.map_some, Move.ofOption, List.append_assoc]
    rfl

theorem does_untilBrace {p : Step Statement} {n : Nat} (hp : sc.DoesStatement p n) :
    sc.Does (sc.untilBrace p) [.body n] := by
  intro a ts
  rw [List.singleton_append]
  induction hn : ts.length using Nat.strongRecOn generalizing ts with
  | ind l ih =>
    cases ts with
    | nil =>
      rw [untilBrace]
      exact sc.verdict_cons_nil _ a
    | cons t ts =>
      by_cases ht : t.kind = .closeBrace
      · rw [verdict_cons_token, Task.move, if_pos ht, untilBrace, if_pos ht]
        rfl
      · rw [hp.verdict_again (.body n) (if_neg ht), untilBrace, if_neg ht]
        cases p (t :: ts) with
        | error f => rfl
        | ok r =>
          obtain ⟨v, rest, h⟩ := r
          have hrest := ih rest.length (hn ▸ h) rest rfl
          show sc.verdict (.body n :: a) rest = _
          rw [hrest]
          dsimp only
          cases sc.untilBrace p rest <;> rfl

theorem does_block {p : Step Statement} {n : Nat} (hp : sc.DoesStatement p n) :
    sc.Does (sc.block p) [.block (n + 1)] := by
  intro a ts
  have hopen : sc.verdict (.block (n + 1) :: a) ts =
      sc.verdict (.one .openBrace :: .body n :: a) ts := by
    cases ts with
    | nil => rw [verdict_cons_nil, verdict_cons_nil]; rfl
    | cons t ts =>
      simp only [verdict_cons_token, Task.move]
      by_cases h : t.kind = .openBrace <;> simp [h]
  rw [List.singleton_append, hopen, verdict_one]
  simp only [block, bind_assoc, pure_bind, (does_untilBrace hp).bind]
  rfl

theorem doesStatement_statement (sc : Scope) (n : Nat) : sc.DoesStatement (sc.statement n) n := by
  induction n with
  | zero =>
    refine doesStatement_statementWith (does_expression sc 0) fun a ts => ?_
    cases ts with
    | nil => exact sc.verdict_cons_nil _ a
    | cons t ts => exact sc.verdict_cons_token _ a t ts
  | succ n ih => exact doesStatement_statementWith (does_expression sc (n + 1)) (does_block ih)

/-- **The parser is the machine**: the statements up to the end of the text are read exactly if the
tokens fill the agenda, and otherwise the failure is that of the first snag. -/
theorem verdict_statements (sc : Scope) (n : Nat) (ts : List Token) :
    sc.verdict [.statements n] ts = (sc.untilEnd (sc.statement n) ts).map fun _ => () := by
  induction hn : ts.length using Nat.strongRecOn generalizing ts with
  | ind l ih =>
    cases ts with
    | nil =>
      rw [verdict_cons_nil, untilEnd]
      cases h : sc.ending <;> simp [Task.lack, verdict, Agenda.snag, Agenda.lack, h, Except.map]
    | cons t ts =>
      rw [(doesStatement_statement sc n).verdict_again (.statements n) rfl, untilEnd]
      cases sc.statement n (t :: ts) with
      | error f => rfl
      | ok r =>
        obtain ⟨v, rest, h⟩ := r
        show sc.verdict [.statements n] rest = _
        rw [ih rest.length (hn ▸ h) rest rfl]
        dsimp only
        cases sc.untilEnd (sc.statement n) rest <;> rfl

end Scope

/-! ### Texts -/

/-- What a program asks for: statements, as deep as the limit. -/
def Agenda.start (limit : Nat) : Agenda := [.statements limit]

/-- The snag in a text, and the tokens from there on. -/
def snag (maxDepth : Int) (src : Text) : Option (Snag × List Token) :=
  (Agenda.start (depthLimit maxDepth)).snag (tokenize src).tokens

/-- What a text is read in. -/
def scope (maxDepth : Int) (src : Text) : Scope := ⟨(tokenize src).ending, depthLimit maxDepth⟩

theorem map_parse (maxDepth : Int) (src : Text) :
    ((parse maxDepth src).map fun _ => ()) =
      (scope maxDepth src).verdict (Agenda.start (depthLimit maxDepth)) (tokenize src).tokens := by
  rw [Agenda.start, Scope.verdict_statements, parse]
  simp only [scope]
  cases Scope.untilEnd _ _ _ <;> rfl

theorem exists_ok_of_map {x : Except Failure Program} (h : (x.map fun _ => ()) = .ok ()) :
    ∃ p, x = .ok p := by
  cases x with
  | error f => cases h
  | ok p => exact ⟨p, rfl⟩

theorem eq_error_of_map {x : Except Failure Program} {f : Failure}
    (h : (x.map fun _ => ()) = .error f) : x = .error f := by
  cases x with
  | error g => rw [Except.error.inj h]
  | ok p => cases h

/-- A text has a program exactly if it is all tokens and there is no snag. -/
theorem exists_parse_iff {maxDepth : Int} {src : Text} :
    (∃ p, parse maxDepth src = .ok p) ↔
      (∃ o, (tokenize src).ending = .complete o) ∧ snag maxDepth src = none := by
  refine Iff.trans ?_ ((scope maxDepth src).verdict_eq_ok_iff)
  rw [← map_parse]
  cases parse maxDepth src <;> simp [Except.map]

/-- The failure of a text is that of the snag. Without one it is the character that cannot be
read. -/
theorem parse_eq_error_iff {maxDepth : Int} {src : Text} {f : Failure} :
    parse maxDepth src = .error f ↔
      (∃ why ts, snag maxDepth src = some (why, ts) ∧ (scope maxDepth src).failure why ts = f) ∨
        ∃ u, snag maxDepth src = none ∧ (tokenize src).ending = .unreadable u ∧
          ⟨u.offset, .unexpectedCharacter u.character⟩ = f := by
  refine Iff.trans ?_ ((scope maxDepth src).verdict_eq_error_iff)
  rw [← map_parse]
  cases parse maxDepth src <;> simp [Except.map]

end Scriptlet
