import Scriptlet.Proofs.Agenda

/-!
# Agendas that occur

Only some agendas occur when statements are read. In these, what may be left undone always stands
before a task that asks for a token of one kind, which goes past it (`Task.Before.passes`). The
machine keeps that form (`Agenda.Ready.run`), and with it two things follow: an agenda that lacks
nothing is the one it all started with, and a token of the kind that was expected would have been
taken.
-/

namespace Scriptlet

/-- The kind of token without which a task cannot be begun. -/
def Task.wants : Task → Option Kind
  | one k => some k
  | block _ => some .openBrace
  | moreParameters | moreArguments _ => some .closeParen
  | _ => none

/-- The kind of token without which the next task cannot be begun. -/
def Agenda.wants (a : Agenda) : Option Kind := a.head?.bind Task.wants

/-- May the task stand before the agenda? What may be left undone, or may come to that, has to leave
the token that is wanted after it. -/
def Task.Before : Task → Agenda → Prop
  | one k, _ => k ≠ .endOfInput
  | statements _, _ => False
  | optionalType, a => ∃ k ∈ a.wants, k ≠ .colon
  | expression _, a | optionalArguments _, a => ∃ k ∈ a.wants, k ≠ .openParen
  | optionalExpression _, a => .semicolon ∈ a.wants
  | _, _ => True

/-- The agendas that occur when statements are read as deep as the limit. -/
inductive Agenda.Ready (limit : Nat) : Agenda → Prop where
  /-- Nothing is begun. -/
  | start : Ready limit (.start limit)
  /-- There is a task before others. -/
  | cons {task : Task} {a : Agenda} : task.Before a → Ready limit a → Ready limit (task :: a)

/-! ### What a task does before an agenda -/

namespace Task

variable {task : Task} {a : Agenda} {k : Kind} {x : Expectation}

/-- A task that may be left undone goes past the token that is wanted after it. -/
theorem Before.passes (h : task.Before a) (hl : task.lack = none) :
    ∃ k ∈ a.wants, task.move k = .pass := by
  cases task with
  | optionalType =>
    obtain ⟨k, hk, hne⟩ := h
    exact ⟨k, hk, if_neg hne⟩
  | optionalArguments n =>
    obtain ⟨k, hk, hne⟩ := h
    refine ⟨k, hk, ?_⟩
    cases n <;> exact if_neg hne
  | optionalExpression n => exact ⟨.semicolon, h, rfl⟩
  | statements n => exact h.elim
  | block n => cases n <;> cases hl
  | _ => cases hl

/-- A task that wants a token may not be left undone. -/
theorem lack_of_wants (h : k ∈ task.wants) : task.lack ≠ none := by
  cases task with
  | one | moreParameters | moreArguments => exact Option.some_ne_none _
  | block n => cases n <;> exact Option.some_ne_none _
  | _ => cases h

/-- A task that goes past a token may be left undone. -/
theorem lack_of_pass (h : task.move k = .pass) : task.lack = none := by
  revert h
  fun_cases move task k <;> simp [lack]

end Task

namespace Agenda

variable {limit n : Nat} {a b : Agenda} {k : Kind} {tasks : List Task}

/-! ### The form is kept -/

theorem Ready.one {j : Kind} (ha : Ready limit a) (hj : j ≠ .endOfInput) :
    Ready limit (.one j :: a) :=
  .cons hj ha

theorem Ready.optionalType {j : Kind} (ha : Ready limit a) (hj : j ∈ a.wants) (hne : j ≠ .colon) :
    Ready limit (.optionalType :: a) := .cons ⟨j, hj, hne⟩ ha

theorem Ready.expression {j : Kind} (ha : Ready limit a) (hj : j ∈ a.wants) (hne : j ≠ .openParen) :
    Ready limit (.expression n :: a) := .cons ⟨j, hj, hne⟩ ha

theorem Ready.expressionTasks {j : Kind} (ha : Ready limit a) (hj : j ∈ a.wants)
    (hne : j ≠ .openParen) (h : expressionTasks n k = some tasks) : Ready limit (tasks ++ a) := by
  cases k with
  | identifier =>
    obtain rfl := Option.some.inj h
    exact .cons ⟨j, hj, hne⟩ ha
  | number | string =>
    obtain rfl := Option.some.inj h
    exact ha
  | _ => cases h

theorem Ready.statementTasks (ha : Ready limit a) (h : statementTasks n k = some tasks) :
    Ready limit (tasks ++ a) := by
  have hend : Ready limit (.one .semicolon :: a) := ha.one (by decide)
  cases k with
  | function =>
    obtain rfl := Option.some.inj h
    have hblock : Ready limit (.block n :: a) := .cons trivial ha
    have hparameters : Ready limit (.parameters :: .optionalType :: .block n :: a) :=
      .cons trivial (hblock.optionalType rfl (by decide))
    exact hparameters.one (by decide)
  | declare =>
    obtain rfl := Option.some.inj h
    have hparameters : Ready limit (.parameters :: .one .colon :: .one .identifier ::
        .one .semicolon :: a) :=
      .cons trivial ((hend.one (by decide)).one (by decide))
    exact (hparameters.one (by decide)).one (by decide)
  | const =>
    obtain rfl := Option.some.inj h
    have hvalue : Ready limit (.one .assign :: .expression n :: .one .semicolon :: a) :=
      (hend.expression rfl (by decide)).one (by decide)
    exact (hvalue.optionalType rfl (by decide)).one (by decide)
  | «return» =>
    obtain rfl := Option.some.inj h
    exact .cons rfl hend
  | identifier =>
    obtain rfl := Option.some.inj h
    exact .cons ⟨.semicolon, rfl, by decide⟩ hend
  | number | string =>
    obtain rfl := Option.some.inj h
    exact hend
  | _ => cases h

/-- A task that takes a token is replaced by tasks that may stand where it stood. -/
theorem Ready.take {task : Task} (h : Ready limit (task :: a)) (hm : task.move k = .take tasks) :
    Ready limit (tasks ++ a) := by
  -- the task that reads statements stays behind the one that is begun
  have again {n : Nat} {x : Expectation} {task : Task} (h : Ready limit (task :: a))
      (hm : Move.ofOption x ((Scriptlet.statementTasks n k).map (· ++ [task])) = .take tasks) :
      Ready limit (tasks ++ a) := by
    obtain ⟨_, htasks, rfl⟩ := Option.map_eq_some_iff.1 (Move.ofOption_eq_take.1 hm)
    rw [List.append_assoc]
    exact h.statementTasks htasks
  cases h with
  | start => exact again .start hm
  | cons hb ha =>
    have hparameters : Ready limit (.moreParameters :: a) := .cons trivial ha
    have harguments (n : Nat) : Ready limit (.moreArguments n :: a) := .cons trivial ha
    cases task with
    | one j =>
      rw [Task.move] at hm
      split at hm <;> cases hm
      exact ha
    | statements n => exact hb.elim
    | body n =>
      rw [Task.move] at hm
      split at hm
      · cases hm
        exact ha
      · exact again (.cons hb ha) hm
    | block n =>
      cases n with
      | zero => cases hm
      | succ n =>
        rw [Task.move] at hm
        split at hm <;> cases hm
        exact .cons trivial ha
    | optionalType =>
      rw [Task.move] at hm
      split at hm <;> cases hm
      exact ha.one (by decide)
    | parameters =>
      rw [Task.move] at hm
      split at hm <;> cases hm
      exact .cons trivial ha
    | firstParameter =>
      rw [Task.move] at hm
      split at hm
      · cases hm
        exact ha
      · split at hm <;> cases hm
        exact hparameters.optionalType rfl (by decide)
    | moreParameters =>
      rw [Task.move] at hm
      split at hm
      · cases hm
        exact (hparameters.optionalType rfl (by decide)).one (by decide)
      · split at hm <;> cases hm
        exact ha
    | expression n =>
      obtain ⟨j, hj, hne⟩ := hb
      exact ha.expressionTasks hj hne (Move.ofOption_eq_take.1 hm)
    | optionalArguments n =>
      cases n with
      | zero =>
        rw [Task.move] at hm
        split at hm <;> cases hm
      | succ n =>
        rw [Task.move] at hm
        split at hm <;> cases hm
        exact (harguments n).expression rfl (by decide)
    | moreArguments n =>
      rw [Task.move] at hm
      split at hm
      · cases hm
        exact (harguments n).expression rfl (by decide)
      · split at hm <;> cases hm
        exact ha
    | optionalExpression n =>
      rw [Task.move] at hm
      split at hm
      · cases hm
      · exact ha.expressionTasks hb (by decide) (Move.ofOption_eq_take.1 hm)

/-- A token keeps the form of the agenda. -/
theorem Ready.next (h : Ready limit a) (hn : a.next k = .ok b) : Ready limit b := by
  induction a with
  | nil => cases hn
  | cons task a ih =>
    rcases next_cons_eq_ok.1 hn with ⟨tasks, hm, rfl⟩ | ⟨-, hrest⟩
    · exact h.take hm
    · cases h with
      | start => cases hrest
      | cons _ ha => exact ih ha hrest

/-- Tokens keep the form of the agenda. -/
theorem Ready.run {ks : List Kind} (h : Ready limit a) (hr : a.run ks = some b) : Ready limit b :=
  run_invariant (fun hn h => h.next hn) hr h

/-! ### What is wanted -/

theorem exists_task_of_wants (h : k ∈ a.wants) :
    ∃ task rest, a = task :: rest ∧ k ∈ task.wants := by
  cases a with
  | nil => cases h
  | cons task rest => exact ⟨task, rest, rfl, h⟩

/-- An agenda that lacks nothing is the one it all started with. -/
theorem Ready.eq_start (h : Ready limit a) (hl : a.lack = none) : a = Agenda.start limit := by
  cases h with
  | start => rfl
  | cons hb ha =>
    rw [lack, List.findSome?_cons] at hl
    split at hl
    · cases hl
    · rename_i hlack
      obtain ⟨k, hk, -⟩ := hb.passes hlack
      obtain ⟨task', rest, rfl, hwants⟩ := exists_task_of_wants hk
      rw [List.findSome?_cons] at hl
      split at hl
      · cases hl
      · rename_i hlack'
        exact absurd hlack' (Task.lack_of_wants hwants)

end Agenda

end Scriptlet
