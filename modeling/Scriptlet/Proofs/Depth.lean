import Scriptlet.Proofs.Limit

/-!
# What is open where a text is too deep

What stands open behind some tokens can be read off their kinds, without a parser: a brace opens a
block, and a parenthesis after a name opens the parameters of a function, or else the arguments of a
call; what closes takes away the last that was opened. The agenda of the parser has one task for
each of them (`Agenda.Follows`), and its tasks have as many levels left as are not open yet.

So a text is called too deep only behind tokens that leave exactly as many blocks and arguments open
as the limit allows (`parse_tooDeep_opens`). There stands what would open one more; or else a brace
has to come there to open a block, and does not.
-/

namespace Scriptlet

/-! ### What is open -/

/-- What may stand open. -/
inductive Enclosure where
  /-- A block. -/
  | block
  /-- The arguments of a call. -/
  | arguments
  /-- The parameters of a function. -/
  | parameters
  deriving DecidableEq

/-- Does the enclosure count as a level? Parameters do not, for nothing nests in them. -/
def Enclosure.isLevel : Enclosure → Bool
  | block | arguments => true
  | parameters => false

/-- What a token of the kind opens behind tokens of the given kinds, the last one first. A
parenthesis opens nothing if no name stands before it, or one that is a type. -/
def Kind.opens? : Kind → List Kind → Option Enclosure
  | .openBrace, _ => some .block
  | .openParen, .identifier :: .function :: _ => some .parameters
  | .openParen, .identifier :: .colon :: _ => none
  | .openParen, .identifier :: _ => some .arguments
  | _, _ => none

/-- Is it a brace or a parenthesis? -/
def Kind.isBracket : Kind → Bool
  | .openBrace | .closeBrace | .openParen | .closeParen => true
  | _ => false

/-- What is open behind tokens of the given kinds, the last one first. -/
def enclosures : List Kind → List Enclosure
  | [] => []
  | .closeBrace :: ks | .closeParen :: ks => (enclosures ks).tail
  | k :: ks => (k.opens? ks).toList ++ enclosures ks

/-- What is open behind the tokens, what was opened last first. -/
def opened (ts : List Token) : List Enclosure := enclosures (ts.map Token.kind).reverse

/-- How many blocks and arguments are open behind the tokens. -/
def levels (ts : List Token) : Nat := (opened ts).countP Enclosure.isLevel

/-- Behind the tokens `before`, the token opens a block or the arguments of a call. -/
def Opens (before : List Token) (t : Token) : Prop :=
  (t.kind = .openBrace ∧ opened (before ++ [t]) = .block :: opened before) ∨
    (t.kind = .openParen ∧ opened (before ++ [t]) = .arguments :: opened before)

theorem opened_concat {before : List Token} {t : Token} :
    opened (before ++ [t]) = enclosures (t.kind :: (before.map Token.kind).reverse) := by
  simp [opened]

theorem enclosures_of_opens? {k : Kind} {ks : List Kind} {e : Enclosure}
    (h : k.opens? ks = some e) : enclosures (k :: ks) = e :: enclosures ks := by
  cases k with
  | closeBrace | closeParen => cases h
  | _ => rw [enclosures, h] <;> simp

theorem enclosures_of_not_isBracket {k : Kind} (h : k.isBracket = false) (ks : List Kind) :
    enclosures (k :: ks) = enclosures ks := by
  cases k with
  | openBrace | closeBrace | openParen | closeParen => cases h
  | _ => rfl

/-! ### What the agenda says -/

/-- What is open while the task is still to be done. -/
def Task.encloses : Task → List Enclosure
  | body _ => [.block]
  | moreArguments _ => [.arguments]
  | firstParameter | moreParameters => [.parameters]
  | _ => []

/-- How many more levels may be opened in the task. -/
def Task.room : Task → Option Nat
  | statements n | body n | block n | expression n | optionalArguments n | moreArguments n
  | optionalExpression n => some n
  | _ => none

/-- Tokens behind which a phrase may begin or end: no name of a function and no type comes next. -/
def Calm (ks : List Kind) : Prop := ks.head? ≠ some .function ∧ ks.head? ≠ some .colon

namespace Agenda

/-- What is open while the agenda is still to be done. -/
def enclosing (a : Agenda) : List Enclosure := a.flatMap Task.encloses

/-- Each task has the levels left that are not open around it. -/
def Roomy (limit : Nat) : Agenda → Prop
  | [] => True
  | task :: a =>
    (∀ n ∈ task.room, n + (enclosing (task :: a)).countP Enclosure.isLevel = limit) ∧ Roomy limit a

/-- The agenda fits behind tokens of the given kinds, the last one first: where parameters come next
there is the name of a function, and where arguments may come next the name of what is called. -/
def Led : List Kind → Agenda → Prop
  | _, [] => True
  | ks, .one k :: a => k.isBracket = false ∧ Led (k :: ks) a
  | ks, .parameters :: a => (∃ r, ks = .identifier :: .function :: r) ∧ ∀ ks', Calm ks' → Led ks' a
  | ks, .optionalArguments _ :: a => (∃ r, ks = .identifier :: r ∧ Calm r) ∧ ∀ ks', Calm ks' →
      Led ks' a
  | ks, _ :: a => Calm ks ∧ ∀ ks', Calm ks' → Led ks' a

/-- The agenda follows from tokens of the given kinds, the last one first. -/
structure Follows (limit : Nat) (ks : List Kind) (a : Agenda) : Prop where
  /-- What is open behind the tokens is what the agenda is to close. -/
  enclosures_eq : enclosures ks = a.enclosing
  roomy : a.Roomy limit
  led : a.Led ks

/-- The agenda waits behind a phrase that begins after tokens of the given kinds, the last one
first. In the phrase, `n` more levels may be opened. -/
structure Waits (limit n : Nat) (ks : List Kind) (a : Agenda) : Prop where
  enclosures_eq : enclosures ks = a.enclosing
  roomy : a.Roomy limit
  room : n + a.enclosing.countP Enclosure.isLevel = limit
  calm : Calm ks
  led : ∀ ks', Calm ks' → a.Led ks'

variable {limit n : Nat} {ks : List Kind} {k : Kind} {a b : Agenda} {task : Task}
  {tasks : List Task}

/-! ### One token -/

theorem calm_cons (ks : List Kind) (hk : k ≠ .function ∧ k ≠ .colon) : Calm (k :: ks) := by
  simpa [Calm] using hk

theorem Roomy.cons (h : a.Roomy limit) (ht : task.room = none) : Roomy limit (task :: a) :=
  ⟨fun n hn => absurd (ht ▸ hn) (Option.not_mem_none n), h⟩

/-- The task is to be done behind the phrase, and has as many levels left. -/
theorem Waits.roomy_cons (h : Waits limit n ks a) (ht : task.room = some n)
    (he : task.encloses = []) : Roomy limit (task :: a) := by
  refine ⟨fun m hm => ?_, h.roomy⟩
  obtain rfl : n = m := Option.some.inj (ht.symm.trans hm)
  rw [enclosing, List.flatMap_cons, he]
  exact h.room

theorem Waits.semicolon (h : Waits limit n ks a) : Waits limit n ks (.one .semicolon :: a) :=
  ⟨h.enclosures_eq, h.roomy.cons rfl, h.room, h.calm,
    fun ks' _ => ⟨rfl, h.led _ (calm_cons ks' (by decide))⟩⟩

theorem Waits.expressionTasks (h : Waits limit n ks a) (htasks : expressionTasks n k = some tasks) :
    Follows limit (k :: ks) (tasks ++ a) := by
  cases k with
  | identifier =>
    obtain rfl := Option.some.inj htasks
    exact ⟨h.enclosures_eq, h.roomy_cons rfl rfl, ⟨ks, rfl, h.calm⟩, h.led⟩
  | number | string =>
    obtain rfl := Option.some.inj htasks
    exact ⟨h.enclosures_eq, h.roomy, h.led _ (calm_cons ks (by decide))⟩
  | _ => cases htasks

theorem Waits.statementTasks (h : Waits limit n ks a) (htasks : statementTasks n k = some tasks) :
    Follows limit (k :: ks) (tasks ++ a) := by
  cases k with
  | function =>
    obtain rfl := Option.some.inj htasks
    have hroomy : Roomy limit (.optionalType :: .block n :: a) := (h.roomy_cons rfl rfl).cons rfl
    have hled (ks' : List Kind) (hc : Calm ks') : Led ks' (.optionalType :: .block n :: a) :=
      ⟨hc, fun _ hc' => ⟨hc', h.led⟩⟩
    exact ⟨h.enclosures_eq, (hroomy.cons rfl).cons rfl, rfl, ⟨ks, rfl⟩, hled⟩
  | declare =>
    obtain rfl := Option.some.inj htasks
    have hroomy : Roomy limit (.one .colon :: .one .identifier :: .one .semicolon :: a) :=
      (h.semicolon.roomy.cons rfl).cons rfl
    have hled (ks' : List Kind) (_ : Calm ks') :
        Led ks' (.one .colon :: .one .identifier :: .one .semicolon :: a) :=
      ⟨rfl, rfl, rfl, h.led _ (calm_cons _ (by decide))⟩
    exact ⟨h.enclosures_eq, ((hroomy.cons rfl).cons rfl).cons rfl, rfl, rfl, ⟨_, rfl⟩, hled⟩
  | const =>
    obtain rfl := Option.some.inj htasks
    have hroomy : Roomy limit (.expression n :: .one .semicolon :: a) :=
      h.semicolon.roomy_cons rfl rfl
    have hled (ks' : List Kind) (_ : Calm ks') :
        Led ks' (.one .assign :: .expression n :: .one .semicolon :: a) :=
      ⟨rfl, calm_cons _ (by decide), h.semicolon.led⟩
    exact ⟨h.enclosures_eq, ((hroomy.cons rfl).cons rfl).cons rfl, rfl,
      calm_cons _ (by decide), hled⟩
  | «return» =>
    obtain rfl := Option.some.inj htasks
    exact ⟨h.enclosures_eq, h.semicolon.roomy_cons rfl rfl, calm_cons _ (by decide),
      h.semicolon.led⟩
  | identifier =>
    obtain rfl := Option.some.inj htasks
    exact h.semicolon.expressionTasks (k := .identifier) rfl
  | number =>
    obtain rfl := Option.some.inj htasks
    exact h.semicolon.expressionTasks (k := .number) rfl
  | string =>
    obtain rfl := Option.some.inj htasks
    exact h.semicolon.expressionTasks (k := .string) rfl
  | _ => cases htasks

/-- What is closed is what was opened last. -/
theorem Follows.close {e : Enclosure} (h : Follows limit ks (task :: a))
    (hk : k = .closeBrace ∨ k = .closeParen) (ht : task.encloses = [e]) (hled : a.Led (k :: ks)) :
    Follows limit (k :: ks) a := by
  refine ⟨?_, h.roomy.2, hled⟩
  have htail : enclosures (k :: ks) = (enclosures ks).tail := by
    rcases hk with rfl | rfl <;> rfl
  rw [htail, h.enclosures_eq, enclosing, List.flatMap_cons, ht]
  rfl

/-- What is opened takes one of the levels. -/
theorem room_open {e : Enclosure} (he : e.isLevel = true)
    (h : n + 1 + a.enclosing.countP Enclosure.isLevel = limit) :
    n + (e :: a.enclosing).countP Enclosure.isLevel = limit := by
  rw [List.countP_cons_of_pos he]
  omega

theorem opens?_arguments {r : List Kind} (h : Calm r) :
    Kind.opens? .openParen (.identifier :: r) = some .arguments := by
  rw [Kind.opens?.eq_4]
  · rintro _ rfl
    exact h.1 rfl
  · rintro _ rfl
    exact h.2 rfl

/-- What a task that takes a token becomes follows from that token too. -/
theorem Follows.take (h : Follows limit ks (task :: a)) (hm : task.move k = .take tasks) :
    Follows limit (k :: ks) (tasks ++ a) := by
  -- the task that reads statements stays behind the one that is begun
  have again {n : Nat} {x : Expectation} {task : Task} (h : Waits limit n ks (task :: a))
      (hm : Move.ofOption x ((Scriptlet.statementTasks n k).map (· ++ [task])) = .take tasks) :
      Follows limit (k :: ks) (tasks ++ a) := by
    obtain ⟨_, htasks, rfl⟩ := Option.map_eq_some_iff.1 (Move.ofOption_eq_take.1 hm)
    rw [List.append_assoc]
    exact h.statementTasks htasks
  have close {e : Enclosure} (hk : k = .closeBrace ∨ k = .closeParen) (ht : task.encloses = [e])
      (hled : ∀ ks', Calm ks' → a.Led ks') : Follows limit (k :: ks) a := by
    refine h.close hk ht (hled _ ?_)
    rcases hk with rfl | rfl <;> exact calm_cons ks (by decide)
  obtain ⟨he, ⟨hroom, hroomy⟩, hled⟩ := h
  cases task with
  | one j =>
    rw [Task.move] at hm
    split at hm <;> cases hm
    rename_i hk
    subst hk
    exact ⟨(enclosures_of_not_isBracket hled.1 ks).trans he, hroomy, hled.2⟩
  | statements n =>
    exact again ⟨he, ⟨hroom, hroomy⟩, hroom n rfl, hled.1, fun _ hc => ⟨hc, hled.2⟩⟩ hm
  | body n =>
    rw [Task.move] at hm
    split at hm
    · rename_i hk
      cases hm
      exact close (.inl hk) rfl hled.2
    · exact again ⟨he, ⟨hroom, hroomy⟩, hroom n rfl, hled.1, fun _ hc => ⟨hc, hled.2⟩⟩ hm
  | block n =>
    cases n with
    | zero => cases hm
    | succ n =>
      rw [Task.move] at hm
      split at hm <;> cases hm
      rename_i hk
      subst hk
      refine ⟨?_, ⟨?_, hroomy⟩, calm_cons _ (by decide), hled.2⟩
      · rw [enclosures_of_opens? rfl, he]
        rfl
      · rintro _ ⟨⟩
        exact room_open (e := .block) rfl (hroom _ rfl)
  | optionalType =>
    rw [Task.move] at hm
    split at hm <;> cases hm
    rename_i hk
    subst hk
    exact ⟨he, hroomy.cons rfl, rfl, hled.2 _ (calm_cons _ (by decide))⟩
  | parameters =>
    rw [Task.move] at hm
    split at hm <;> cases hm
    rename_i hk
    subst hk
    obtain ⟨⟨r, rfl⟩, hled⟩ := hled
    refine ⟨?_, hroomy.cons rfl, calm_cons _ (by decide), hled⟩
    rw [enclosures_of_opens? rfl, he]
    rfl
  | firstParameter =>
    rw [Task.move] at hm
    split at hm
    · rename_i hk
      cases hm
      exact close (.inr hk) rfl hled.2
    · split at hm <;> cases hm
      rename_i hk
      subst hk
      exact ⟨he, (hroomy.cons rfl).cons rfl, calm_cons _ (by decide), fun _ hc => ⟨hc, hled.2⟩⟩
  | moreParameters =>
    rw [Task.move] at hm
    split at hm
    · rename_i hk
      cases hm
      subst hk
      exact ⟨he, ((hroomy.cons rfl).cons rfl).cons rfl, rfl, calm_cons _ (by decide),
        fun _ hc => ⟨hc, hled.2⟩⟩
    · split at hm <;> cases hm
      rename_i hk
      exact close (.inr hk) rfl hled.2
  | expression n =>
    exact Waits.expressionTasks ⟨he, hroomy, hroom n rfl, hled.1, hled.2⟩
      (Move.ofOption_eq_take.1 hm)
  | optionalArguments n =>
    cases n with
    | zero =>
      rw [Task.move] at hm
      split at hm <;> cases hm
    | succ n =>
      rw [Task.move] at hm
      split at hm <;> cases hm
      rename_i hk
      subst hk
      obtain ⟨⟨r, rfl, hr⟩, hled⟩ := hled
      have hopen := room_open (e := .arguments) rfl (hroom _ rfl)
      refine ⟨?_, ⟨?_, ?_, hroomy⟩, calm_cons _ (by decide), fun _ hc => ⟨hc, hled⟩⟩
      · rw [enclosures_of_opens? (opens?_arguments hr), he]
        rfl
      · rintro _ ⟨⟩
        exact hopen
      · rintro _ ⟨⟩
        exact hopen
  | moreArguments n =>
    rw [Task.move] at hm
    split at hm
    · rename_i hk
      cases hm
      subst hk
      refine ⟨he, ⟨?_, hroom, hroomy⟩, calm_cons _ (by decide), fun _ hc => ⟨hc, hled.2⟩⟩
      rintro _ ⟨⟩
      exact hroom n rfl
    · split at hm <;> cases hm
      rename_i hk
      exact close (.inr hk) rfl hled.2
  | optionalExpression n =>
    rw [Task.move] at hm
    split at hm
    · cases hm
    · exact Waits.expressionTasks ⟨he, hroomy, hroom n rfl, hled.1, hled.2⟩
        (Move.ofOption_eq_take.1 hm)

/-- What comes behind a task that may be left undone follows as well. -/
theorem Follows.leave (h : Follows limit ks (task :: a)) (hl : task.lack = none) :
    Follows limit ks a := by
  obtain ⟨he, ⟨-, hroomy⟩, hled⟩ := h
  cases task with
  | statements | optionalType | optionalExpression => exact ⟨he, hroomy, hled.2 _ hled.1⟩
  | optionalArguments n =>
    obtain ⟨⟨r, rfl, -⟩, hled⟩ := hled
    exact ⟨he, hroomy, hled _ (calm_cons r (by decide))⟩
  | block n => cases n <;> cases hl
  | _ => cases hl

theorem Follows.next (h : Follows limit ks a) (hn : a.next k = .ok b) :
    Follows limit (k :: ks) b := by
  induction a with
  | nil => cases hn
  | cons task a ih =>
    rcases next_cons_eq_ok.1 hn with ⟨tasks, hm, rfl⟩ | ⟨hm, hrest⟩
    · exact h.take hm
    · exact ih (h.leave (Task.lack_of_pass hm)) hrest

/-! ### Many tokens -/

theorem follows_start (limit : Nat) : Follows limit [] (start limit) :=
  ⟨rfl, ⟨by rintro _ ⟨⟩; rfl, trivial⟩, ⟨by simp [Calm], fun _ _ => trivial⟩⟩

/-- The agenda after tokens follows from them. -/
theorem Follows.run {js : List Kind} (h : Follows limit ks a) (hr : a.run js = some b) :
    Follows limit (js.reverse ++ ks) b := by
  induction js generalizing ks a with
  | nil =>
    obtain rfl := Option.some.inj hr
    exact h
  | cons j js ih =>
    obtain ⟨c, hn, hc⟩ := run_cons_eq_some.1 hr
    rw [List.reverse_cons, List.append_assoc]
    exact ih (h.next hn) hc

end Agenda

/-! ### Where a level is missing -/

namespace Task

variable {task : Task} {k : Kind}

theorem eq_of_move_tooDeep (h : task.move k = .stop .tooDeep) :
    task = .block 0 ∨ task = .optionalArguments 0 ∧ k = .openParen := by
  revert h
  fun_cases move task k <;> simp_all

theorem eq_of_lack_tooDeep (h : task.lack = some .tooDeep) : task = .block 0 := by
  cases task with
  | block n =>
    cases n with
    | zero => rfl
    | succ n => cases h
  | _ => cases h

end Task

namespace Agenda

variable {limit : Nat} {ks : List Kind} {a : Agenda} {ts : List Token}

/-- A task that may be left undone and does not take the next token does not matter. -/
theorem snag_leave {task : Task} (hl : task.lack = none)
    (hp : ∀ t ∈ ts.head?, task.move t.kind = .pass) : snag (task :: a) ts = a.snag ts := by
  cases ts with
  | nil => rw [snag, snag, lack, List.findSome?_cons, hl, lack]
  | cons t ts => rw [snag, snag, Agenda.next, hp t rfl]

/-- A level is missing at the first task, or at one behind it. -/
theorem stuck_tooDeep_cons {task : Task} (h : Stuck (task :: a) .tooDeep ts) :
    task = .block 0 ∨ (task = .optionalArguments 0 ∧ ∃ t ∈ ts.head?, t.kind = .openParen) ∨
      (task.lack = none ∧ ∀ t ∈ ts.head?, task.move t.kind = .pass) ∧ a.Stuck .tooDeep ts := by
  cases ts with
  | nil =>
    rw [Stuck, lack, List.findSome?_cons] at h
    split at h
    · rename_i hlack
      exact .inl (Task.eq_of_lack_tooDeep (hlack.trans h))
    · rename_i hlack
      exact .inr (.inr ⟨⟨hlack, by rintro _ ⟨⟩⟩, h⟩)
  | cons t ts =>
    rw [Stuck, Agenda.next] at h
    cases hm : task.move t.kind with
    | take tasks => simp [hm] at h
    | pass =>
      simp only [hm] at h
      refine .inr (.inr ⟨⟨Task.lack_of_pass hm, ?_⟩, h⟩)
      rintro _ ⟨⟩
      exact hm
    | stop why =>
      simp only [hm, Except.error.injEq] at h
      rcases Task.eq_of_move_tooDeep (h ▸ hm) with htask | ⟨htask, hk⟩
      · exact .inl htask
      · exact .inr (.inl ⟨htask, t, rfl, hk⟩)

/-- With one level more, a block is opened by a brace alone. -/
theorem snag_block (h : startsWithKind .openBrace ts = false) :
    snag (.block 1 :: a) ts = some (.expected (.kind .openBrace), ts) := by
  cases ts with
  | nil => rfl
  | cons t ts =>
    have hk : t.kind ≠ .openBrace := by simpa [startsWithKind] using h
    rw [snag, Agenda.next, Task.move, if_neg hk]

/-- A task that needs a level has none left where as many are open as the limit allows. -/
theorem Follows.full {task : Task} (h : Follows limit ks (task :: a)) (ht : task.room = some 0) :
    (enclosures ks).countP Enclosure.isLevel = limit := by
  have hroom := h.roomy.1 0 ht
  rw [h.enclosures_eq]
  omega

/-- Where a level is missing, as many are open as the limit allows. What would open one more is
there, or it is a brace that is missing too. -/
theorem Follows.of_stuck (h : Follows limit ks a) (hs : a.Stuck .tooDeep ts) :
    (enclosures ks).countP Enclosure.isLevel = limit ∧
      ((∃ t ∈ ts.head?, t.kind = .openBrace) ∨
        (∃ t ∈ ts.head?, t.kind = .openParen ∧ t.kind.opens? ks = some .arguments) ∨
        startsWithKind .openBrace ts = false ∧
          a.raise.snag ts = some (.expected (.kind .openBrace), ts)) := by
  induction a with
  | nil => cases ts <;> cases hs
  | cons task a ih =>
    rcases stuck_tooDeep_cons hs with rfl | ⟨rfl, t, ht, hk⟩ | ⟨⟨hl, hp⟩, hs⟩
    · refine ⟨h.full rfl, ?_⟩
      by_cases hbrace : startsWithKind .openBrace ts = true
      · cases ts with
        | nil => cases hbrace
        | cons t ts => exact .inl ⟨t, rfl, by simpa [startsWithKind] using hbrace⟩
      · have hbrace : startsWithKind .openBrace ts = false := by simpa using hbrace
        exact .inr (.inr ⟨hbrace, snag_block hbrace⟩)
    · obtain ⟨⟨r, rfl, hr⟩, -⟩ := h.led
      exact ⟨h.full rfl, .inr (.inl ⟨t, ht, hk, hk ▸ opens?_arguments hr⟩)⟩
    · -- the task is left undone, with one level more too
      have hl' : task.raise.lack = none := by
        rw [Task.lack_raise (by simp [hl]), hl]
      have hp' : ∀ t ∈ ts.head?, task.raise.move t.kind = .pass := by
        intro t ht
        rw [Task.move_raise (by simp [hp t ht]), hp t ht]
        rfl
      rw [raise, List.map_cons, snag_leave hl' hp']
      exact ih (h.leave hl) hs

end Agenda

/-- A failure names what was expected, unless a character starts no token there. -/
theorem Scope.expected_failure {sc : Scope} {ts : List Token} {x : Expectation}
    (h : ts = [] → ∃ o, sc.ending = .complete o) :
    (sc.failure (.expected x) ts).cause.expected = some x := by
  obtain ⟨ending, limit⟩ := sc
  cases ts with
  | nil =>
    obtain ⟨o, rfl⟩ := h rfl
    rfl
  | cons t ts => rfl

/-- **A text is called too deep only where as many blocks and arguments are open as the limit
allows.** The token that stands there opens one more; or else a brace is missing that would open a
block, and that is what the failure is about with one level more. -/
theorem parse_tooDeep_opens {D : Nat} (hD : 1 ≤ D) {src : Text} {o n : Nat}
    (h : parse D src = .error ⟨o, .tooDeep n⟩) :
    n = D ∧ ∃ before after, (tokenize src).tokens = before ++ after ∧
      o = TokenRun.front ⟨after, (tokenize src).ending⟩ ∧ levels before = D ∧
      ((∃ t ∈ after.head?, Opens before t) ∨
        startsWithKind .openBrace after = false ∧
          ∃ f, parse (D + 1) src = .error f ∧ f.offset = o ∧
            f.cause.expected = some (.kind .openBrace)) := by
  have hlimit : depthLimit D = D := by
    unfold depthLimit
    rw [if_neg (by omega), Int.toNat_natCast]
  rcases parse_eq_error_iff.1 h with ⟨why, after, hs, hf⟩ | ⟨u, -, -, hf⟩
  · obtain ⟨rfl, hn, hend⟩ := Scope.failure_eq_tooDeep hf
    obtain ⟨before, b, htok, hrun, hstuck⟩ := Agenda.exists_run_of_snag hs
    have ho : o = TokenRun.front ⟨after, (tokenize src).ending⟩ := by
      rw [Scope.failure_tooDeep hend] at hf
      exact (Failure.mk.inj hf).1.symm
    have hfollows : b.Follows D (before.map Token.kind).reverse := by
      have := (Agenda.follows_start _).run hrun
      rwa [List.append_nil, hlimit] at this
    obtain ⟨hlevels, hnext⟩ := hfollows.of_stuck hstuck
    refine ⟨hn.trans hlimit, before, after, htok, ho, hlevels, ?_⟩
    rcases hnext with ⟨t, ht, hk⟩ | ⟨t, ht, hk, harguments⟩ | ⟨hbrace, hsnag⟩
    · exact .inl ⟨t, ht, .inl ⟨hk, opened_concat.trans (enclosures_of_opens? (by rw [hk]; rfl))⟩⟩
    · exact .inl ⟨t, ht, .inr ⟨hk, opened_concat.trans (enclosures_of_opens? harguments)⟩⟩
    · have hsnag' : snag (D + 1) src = some (.expected (.kind .openBrace), after) := by
        rw [snag, ← start_raise (by omega), htok, Agenda.snag_append (Agenda.run_raise hrun), hsnag]
      refine .inr ⟨hbrace, _, parse_eq_error_iff.2 (.inl ⟨_, _, hsnag', rfl⟩), ?_, ?_⟩
      · rw [ho]
        exact Scope.offset_failure _ _ _
      · exact Scope.expected_failure hend
  · cases hf

/-- Arguments in arguments in a block. -/
theorem parse_tooDeep_opens_call :
    1 ≤ 2 ∧ parse 2 (utf8 "function f()\x7bg(h(1));\x7d") = .error ⟨16, .tooDeep 2⟩ ∧
      ∃ before after, (tokenize (utf8 "function f()\x7bg(h(1));\x7d")).tokens = before ++ after ∧
        16 = TokenRun.front ⟨after, (tokenize (utf8 "function f()\x7bg(h(1));\x7d")).ending⟩ ∧
        levels before = 2 ∧
        ((∃ t ∈ after.head?, Opens before t) ∨
          startsWithKind .openBrace after = false ∧
            ∃ f, parse 3 (utf8 "function f()\x7bg(h(1));\x7d") = .error f ∧ f.offset = 16 ∧
              f.cause.expected = some (.kind .openBrace)) := by
  have hdeep : parse 2 (utf8 "function f()\x7bg(h(1));\x7d") = .error ⟨16, .tooDeep 2⟩ :=
    eq_error_of_map (by decide +kernel)
  exact ⟨by decide, hdeep, (parse_tooDeep_opens (by decide) hdeep).2⟩

/-- A text may be called too deep where nothing is opened: behind the second header there is a name,
and no brace. With one level more the failure is about that. -/
theorem tooDeep_without_opening :
    parse 1 (utf8 "function f()\x7bfunction g()x") = .error ⟨25, .tooDeep 1⟩ ∧
      (∀ t ∈ (tokenize (utf8 "function f()\x7bfunction g()x")).tokens, t.start = 25 →
        t.kind ≠ .openBrace ∧ t.kind ≠ .openParen) ∧
      parse 2 (utf8 "function f()\x7bfunction g()x") =
        .error ⟨25, .unexpectedToken (.kind .openBrace) ⟨.identifier, utf8 "x", 25, 26⟩⟩ :=
  ⟨eq_error_of_map (by decide +kernel), by decide +kernel, eq_error_of_map (by decide +kernel)⟩

end Scriptlet
