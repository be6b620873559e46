import Scriptlet.Proofs.Scan

/-!
# A cursor reads one stream

Whatever is asked of a cursor, and in whatever order, it reads one fixed stream: the tokens of the
text, and then for ever the token for the end, or the character that cannot be read. Each call takes
some items from the front of the stream and leaves the cursor before the others (`takes_perform`);
so does a whole session (`takes_session`).
-/

namespace Scriptlet

/-! ### Streams -/

/-- What is read for ever once all tokens are read: the token for the end, or the character in the
way. -/
def Ending.item : Ending → Except Unreadable Token
  | complete o => .ok ⟨.endOfInput, [], o, o⟩
  | unreadable u => .error u

namespace TokenRun

/-- What a run hands out: its tokens, with the one for the end, or with the character in the way. -/
def items (r : TokenRun) : List (Except Unreadable Token) :=
  r.all.map .ok ++
    match r.ending with
    | .complete _ => []
    | .unreadable u => [.error u]

/-- What a run hands out, and then its last item for ever. -/
def stream (r : TokenRun) (i : Nat) : Except Unreadable Token := r.items.getD i r.ending.item

theorem items_eq (r : TokenRun) : r.items = r.tokens.map .ok ++ [r.ending.item] := by
  obtain ⟨ts, ending⟩ := r
  cases ending <;> simp [items, all, Ending.item]

@[simp] theorem stream_nil (e : Ending) (i : Nat) : stream ⟨[], e⟩ i = e.item := by
  cases i <;> simp [stream, items_eq]

@[simp] theorem stream_cons_zero (t : Token) (ts : List Token) (e : Ending) :
    stream ⟨t :: ts, e⟩ 0 = .ok t := by
  simp [stream, items_eq]

@[simp] theorem stream_cons_succ (t : Token) (ts : List Token) (e : Ending) (i : Nat) :
    stream ⟨t :: ts, e⟩ (i + 1) = stream ⟨ts, e⟩ i := by
  simp [stream, items_eq]

end TokenRun

namespace Cursor

variable (rules : List Rule)

/-- What a cursor has before it. -/
def stream (c : Cursor) : Nat → Except Unreadable Token := (c.readAll rules).1.stream

end Cursor

/-! ### Finding again -/

/-- Where a cursor stands after something was found. -/
@[simp] def Finding.place : Finding → Cursor
  | token _ d => d
  | ended d => d
  | stuck d => d

namespace Cursor

variable {rules : List Rule} {c d : Cursor}

theorem offset_le_place (rules : List Rule) (c : Cursor) :
    c.offset ≤ (find rules c).place.offset := by
  fun_induction find rules c with
  | case1 => exact Nat.le_refl _
  | case2 => exact Nat.le_refl _
  | case3 o b t n hn hm ih => exact Nat.le_trans (Nat.le_add_right o n) ih
  | case4 o b t k n hn hm => exact Nat.le_add_right o n

/-- The end of the text is found again where it was found. -/
theorem find_ended_again (h : find rules c = .ended d) : find rules d = .ended d := by
  fun_induction find rules c with
  | case1 o =>
    cases h
    exact find_nil rules o
  | case2 => cases h
  | case3 o b t n hn hm ih => exact ih h
  | case4 => cases h

/-- A character in the way is found again where it was found. -/
theorem find_stuck_again (h : find rules c = .stuck d) : find rules d = .stuck d := by
  fun_induction find rules c with
  | case1 => cases h
  | case2 o b t hm =>
    cases h
    exact find_of_none (List.cons_ne_nil b t) hm o
  | case3 o b t n hn hm ih => exact ih h
  | case4 => cases h

theorem next_of_token {t : Token} (h : find rules c = .token t d) : c.next rules = (.ok t, d) := by
  simp [next, h]

theorem next_of_ended (h : find rules c = .ended d) :
    c.next rules = ((Ending.complete d.offset).item, d) := by
  simp [next, h, endToken, Ending.item]

theorem next_of_stuck (h : find rules c = .stuck d) :
    c.next rules = ((Ending.unreadable ⟨d.offset, d.character⟩).item, d) := by
  simp [next, h, Ending.item]

/-! ### Taking items -/

/-- `Takes rules c l d`: from `c` on, the items `l` are read, the cursor moves forward to `d`, and
what `d` has before it is the rest of what `c` had. -/
structure Takes (rules : List Rule) (c : Cursor) (l : List (Except Unreadable Token)) (d : Cursor) :
    Prop where
  offset_le : c.offset ≤ d.offset
  items : l = (List.range l.length).map (c.stream rules)
  rest : ∀ i, d.stream rules i = c.stream rules (l.length + i)

theorem Takes.refl (rules : List Rule) (c : Cursor) : Takes rules c [] c :=
  ⟨Nat.le_refl _, rfl, fun i => by simp⟩

theorem Takes.trans {e : Cursor} {l m : List (Except Unreadable Token)} (h : Takes rules c l d)
    (h' : Takes rules d m e) : Takes rules c (l ++ m) e := by
  refine ⟨h.offset_le.trans h'.offset_le, ?_, fun i => ?_⟩
  · rw [List.length_append, List.range_add, List.map_append, List.map_map, ← h.items]
    congr 1
    calc m = (List.range m.length).map (d.stream rules) := h'.items
      _ = (List.range m.length).map (c.stream rules ∘ (l.length + ·)) :=
        List.map_congr_left fun i _ => h.rest i
  · rw [h'.rest, h.rest, List.length_append, Nat.add_assoc]

/-- Where nothing more is found, the same item is read for ever. -/
theorem takes_of_stop {e : Ending} (hc : readAll rules c = (⟨[], e⟩, d))
    (hd : readAll rules d = (⟨[], e⟩, d)) (ho : c.offset ≤ d.offset) :
    Takes rules c [e.item] d := by
  refine ⟨ho, ?_, fun i => ?_⟩
  · simp [stream, hc]
  · simp [stream, hc, hd]

theorem takes_of_token {t : Token} (h : find rules c = .token t d) : Takes rules c [.ok t] d := by
  have ho : c.offset ≤ d.offset := by simpa [h] using offset_le_place rules c
  refine ⟨ho, ?_, fun i => ?_⟩
  · simp [stream, readAll_of_token h]
  · simp [stream, readAll_of_token h, Nat.add_comm 1 i]

theorem takes_of_ended (h : find rules c = .ended d) :
    Takes rules c [(Ending.complete d.offset).item] d := by
  have ho : c.offset ≤ d.offset := by simpa [h] using offset_le_place rules c
  exact takes_of_stop (readAll_of_ended h) (readAll_of_ended (find_ended_again h)) ho

theorem takes_of_stuck (h : find rules c = .stuck d) :
    Takes rules c [(Ending.unreadable ⟨d.offset, d.character⟩).item] d := by
  have ho : c.offset ≤ d.offset := by simpa [h] using offset_le_place rules c
  exact takes_of_stop (readAll_of_stuck h) (readAll_of_stuck (find_stuck_again h)) ho

/-- The next item is the first of the stream. -/
theorem takes_next (rules : List Rule) (c : Cursor) :
    Takes rules c [(c.next rules).1] (c.next rules).2 := by
  cases h : find rules c with
  | token t d =>
    rw [next_of_token h]
    exact takes_of_token h
  | ended d =>
    rw [next_of_ended h]
    exact takes_of_ended h
  | stuck d =>
    rw [next_of_stuck h]
    exact takes_of_stuck h

/-- Reading all takes the items up to the last one that differs from those before it. -/
theorem takes_readAll (rules : List Rule) (c : Cursor) :
    Takes rules c (c.readAll rules).1.items (c.readAll rules).2 := by
  induction hn : c.rest.length using Nat.strong_induction_on generalizing c with
  | _ n ih =>
    rw [TokenRun.items_eq]
    cases h : find rules c with
    | token t d =>
      have hd := ih d.rest.length (hn ▸ find_shorter rules h) d rfl
      rw [TokenRun.items_eq] at hd
      rw [readAll_of_token h]
      exact (takes_of_token h).trans hd
    | ended d =>
      rw [readAll_of_ended h]
      exact takes_of_ended h
    | stuck d =>
      rw [readAll_of_stuck h]
      exact takes_of_stuck h

end Cursor

/-! ### Sessions -/

/-- What is asked of a cursor. -/
inductive Call where
  /-- The next token. -/
  | next
  /-- The next token, without moving. -/
  | peek
  /-- All tokens from here on. -/
  | tokenize
  /-- Where the cursor stands. -/
  | offset
  deriving DecidableEq

/-- What a cursor answers. -/
inductive Reply where
  /-- The next token, or the character in the way. -/
  | next (item : Except Unreadable Token)
  /-- The same, without moving. -/
  | peek (item : Except Unreadable Token)
  /-- All tokens, and how they end. -/
  | tokenize (run : TokenRun)
  /-- Where the cursor stands. -/
  | offset (n : Nat)

/-- The items that a reply takes from the stream. -/
def Reply.taken : Reply → List (Except Unreadable Token)
  | next item => [item]
  | peek _ => []
  | tokenize run => run.items
  | offset _ => []

namespace Cursor

variable (rules : List Rule)

/-- The answer to a call, and the cursor after it. -/
def perform (c : Cursor) : Call → Reply × Cursor
  | .next => (.next (c.next rules).1, (c.next rules).2)
  | .peek => (.peek (c.peek rules), c)
  | .tokenize => (.tokenize (c.readAll rules).1, (c.readAll rules).2)
  | .offset => (.offset c.offset, c)

/-- The answers to calls, one after the other, and the cursor after them. -/
def session (c : Cursor) : List Call → List Reply × Cursor
  | [] => ([], c)
  | k :: ks =>
    let (r, d) := c.perform rules k
    let (rs, e) := d.session ks
    (r :: rs, e)

theorem session_append (c : Cursor) (ks ks' : List Call) :
    c.session rules (ks ++ ks') =
      ((c.session rules ks).1 ++ ((c.session rules ks).2.session rules ks').1,
        ((c.session rules ks).2.session rules ks').2) := by
  induction ks generalizing c with
  | nil => rfl
  | cons k ks ih => simp [session, ih]

/-- **A call** takes items from the front of the stream. -/
theorem takes_perform (c : Cursor) (k : Call) :
    Takes rules c (c.perform rules k).1.taken (c.perform rules k).2 := by
  cases k with
  | next => exact takes_next rules c
  | peek => exact .refl rules c
  | tokenize => exact takes_readAll rules c
  | offset => exact .refl rules c

/-- **A session** takes items from the front of the stream. -/
theorem takes_session (c : Cursor) (ks : List Call) :
    Takes rules c ((c.session rules ks).1.flatMap Reply.taken) (c.session rules ks).2 := by
  induction ks generalizing c with
  | nil => exact .refl rules c
  | cons k ks ih => exact (takes_perform rules c k).trans (ih _)

end Cursor

/-- **A session is a cursor over one stream**: whatever is asked, the items that are handed out are
the first ones of the stream of the text, one after the other. Looking at the next item gives what
reading it then gives, and moves nothing; and the offset never decreases. -/
theorem session_reads_stream (src : Text) (calls : List Call) :
    let session := (Cursor.start src).session Rule.table
    let taken := (session calls).1.flatMap Reply.taken
    taken = (List.range taken.length).map (tokenize src).stream ∧
      (∃ item, (session (calls ++ [.peek, .next])).1 =
        (session calls).1 ++ [.peek item, .next item]) ∧
      (session (calls ++ [.peek])).2.offset = (session calls).2.offset ∧
      (session (calls ++ [.offset])).1 = (session calls).1 ++ [.offset (session calls).2.offset] ∧
      ∀ more, (session calls).2.offset ≤ (session (calls ++ more)).2.offset := by
  intro session taken
  have append (more : List Call) : session (calls ++ more) = _ :=
      Cursor.session_append Rule.table _ calls more
  refine ⟨(Cursor.takes_session Rule.table _ calls).items, ⟨(session calls).2.peek Rule.table, ?_⟩,
    ?_, ?_, ?_⟩
  · rw [append]
    rfl
  · rw [append]
    rfl
  · rw [append]
    rfl
  · intro more
    rw [append]
    exact (Cursor.takes_session Rule.table _ more).offset_le

end Scriptlet
