import Scriptlet.Proofs.Parse
import Scriptlet.Proofs.Viable

/-!
# Greater limits

The limit on nesting decides nothing but where a text is too deep. With one level more the agenda of
the parser does what it did, until there was a level too few (`Agenda.snag_raise`); so a result that
is not about depth stays, and a text that is still too deep was too deep before, at the same place
or an earlier one. What holds for one level more holds for any greater limit.
-/

namespace Scriptlet

open Grammar

/-! ### One level more -/

/-- A level more changes what a task lacks only where that was a level. -/
theorem Task.lack_raise {task : Task} (h : task.lack ≠ some .tooDeep) :
    task.raise.lack = task.lack := by
  cases task with
  | block n =>
    cases n with
    | zero => exact absurd rfl h
    | succ n => rfl
  | _ => rfl

namespace Agenda

variable {a : Agenda} {ts rest rest' : List Token} {why : Snag}

theorem next_raise_of_stop {k : Kind} {x : Expectation} (h : a.next k = .error (.expected x)) :
    a.raise.next k = .error (.expected x) := by
  induction a with
  | nil => exact h
  | cons task a ih =>
    rw [next] at h
    rw [raise, List.map_cons, next]
    cases hm : task.move k with
    | take tasks => simp [hm] at h
    | pass =>
      rw [Task.move_raise (by simp [hm]), hm]
      exact ih (by simpa [hm] using h)
    | stop why =>
      obtain rfl : why = .expected x := by simpa [hm] using h
      rw [Task.move_raise (by simp [hm]), hm]
      rfl

theorem lack_raise (h : a.lack ≠ some .tooDeep) : a.raise.lack = a.lack := by
  induction a with
  | nil => rfl
  | cons task a ih =>
    unfold lack raise at *
    rw [List.findSome?_cons] at h
    rw [List.map_cons, List.findSome?_cons, List.findSome?_cons]
    cases hl : task.lack with
    | some why =>
      rw [hl] at h
      rw [Task.lack_raise (by rw [hl]; exact h), hl]
    | none =>
      rw [hl] at h
      rw [Task.lack_raise (by simp [hl]), hl]
      exact ih h

/-- **One level more changes a snag only where there was a level too few.** -/
theorem snag_raise (h : ∀ rest, a.snag ts ≠ some (.tooDeep, rest)) :
    a.raise.snag ts = a.snag ts := by
  induction ts generalizing a with
  | nil =>
    have hlack : a.lack ≠ some .tooDeep := by
      intro hl
      exact h [] (by rw [snag, hl]; rfl)
    rw [snag, snag, lack_raise hlack]
  | cons t ts ih =>
    cases hn : a.next t.kind with
    | ok b =>
      rw [snag_of_next hn] at h ⊢
      rw [snag_of_next (next_raise hn)]
      exact ih h
    | error why =>
      rw [snag_of_stop hn] at h ⊢
      cases why with
      | expected x => exact snag_of_stop (next_raise_of_stop hn) ts
      | tooDeep => exact absurd rfl (h (t :: ts))

theorem suffix_of_snag (h : a.snag ts = some (why, rest)) : rest <:+ ts := by
  obtain ⟨before, b, rfl, -, -⟩ := exists_run_of_snag h
  exact List.suffix_append before rest

/-- Where there was a level too few, one level more is in trouble at the same place or further
on. -/
theorem suffix_of_snag_raise (h : a.snag ts = some (.tooDeep, rest))
    (h' : a.raise.snag ts = some (why, rest')) : rest' <:+ rest := by
  induction ts generalizing a with
  | nil =>
    have hrest' := suffix_of_snag h'
    rw [List.suffix_nil.1 hrest']
    exact List.nil_suffix
  | cons t ts ih =>
    cases hn : a.next t.kind with
    | ok b =>
      rw [snag_of_next hn] at h
      rw [snag_of_next (next_raise hn)] at h'
      exact ih h h'
    | error why =>
      rw [snag_of_stop hn] at h
      obtain ⟨-, rfl⟩ := Prod.mk.inj (Option.some.inj h)
      exact suffix_of_snag h'

end Agenda

/-! ### Places -/

/-- Of two places in the tokens of a text, the one with fewer tokens behind it is further on. -/
theorem front_tokenize_mono {src : Text} {ts ts' : List Token} (h : ts <:+ (tokenize src).tokens)
    (h' : ts' <:+ ts) :
    TokenRun.front ⟨ts, (tokenize src).ending⟩ ≤ TokenRun.front ⟨ts', (tokenize src).ending⟩ := by
  obtain ⟨before, hts⟩ := h
  obtain ⟨between, rfl⟩ := h'
  have hread : (Cursor.readAll Rule.table ⟨0, src⟩).1 =
      ⟨before ++ (between ++ ts'), (tokenize src).ending⟩ := by
    rw [hts]
    rfl
  exact (Cursor.front_bounds (Cursor.readAll_behind hread)).1

/-! ### Texts -/

namespace Scope

variable {sc : Scope} {why : Snag} {ts : List Token} {o n : Nat}

/-- A failure is about depth where a level is missing, unless a character starts no token there. -/
theorem failure_eq_tooDeep (h : sc.failure why ts = ⟨o, .tooDeep n⟩) :
    why = .tooDeep ∧ n = sc.limit ∧ (ts = [] → ∃ o, sc.ending = .complete o) := by
  obtain ⟨ending, limit⟩ := sc
  cases why <;> cases ts <;> cases ending <;> simp_all [failure, tooDeep, unexpected, failAt]

theorem failure_tooDeep (h : ts = [] → ∃ o, sc.ending = .complete o) :
    sc.failure .tooDeep ts = ⟨TokenRun.front ⟨ts, sc.ending⟩, .tooDeep sc.limit⟩ := by
  obtain ⟨ending, limit⟩ := sc
  cases ts with
  | nil =>
    obtain ⟨o, rfl⟩ := h rfl
    rfl
  | cons t ts => rfl

theorem failure_expected (ending : Ending) (limit limit' : Nat) (x : Expectation)
    (ts : List Token) :
    failure ⟨ending, limit⟩ (.expected x) ts = failure ⟨ending, limit'⟩ (.expected x) ts := by
  cases ts <;> rfl

end Scope

section Texts

variable {D : Int} {src : Text}

theorem start_raise (hD : 1 ≤ D) :
    (Agenda.start (depthLimit D)).raise = Agenda.start (depthLimit (D + 1)) := by
  rw [depthLimit_succ hD]
  rfl

theorem snag_succ (hD : 1 ≤ D) (h : ∀ rest, snag D src ≠ some (.tooDeep, rest)) :
    snag (D + 1) src = snag D src := by
  unfold snag at *
  rw [← start_raise hD]
  exact Agenda.snag_raise h

theorem suffix_of_snag_succ (hD : 1 ≤ D) {why : Snag} {rest rest' : List Token}
    (h : snag D src = some (.tooDeep, rest)) (h' : snag (D + 1) src = some (why, rest')) :
    rest' <:+ rest := by
  unfold snag at h'
  rw [← start_raise hD] at h'
  exact Agenda.suffix_of_snag_raise h h'

theorem limit_of_tooDeep {o n : Nat} (h : parse D src = .error ⟨o, .tooDeep n⟩) :
    n = depthLimit D := by
  rcases parse_eq_error_iff.1 h with ⟨why, ts, -, hf⟩ | ⟨u, -, -, hf⟩
  · exact (Scope.failure_eq_tooDeep hf).2.1
  · cases hf

/-- A result that is not about depth stays with one level more. -/
theorem parse_succ (hD : 1 ≤ D) (h : ∀ o n, parse D src ≠ .error ⟨o, .tooDeep n⟩) :
    parse (D + 1) src = parse D src := by
  cases hp : parse D src with
  | ok p =>
    obtain ⟨ho, d, hd, hn, rfl⟩ := parse_eq_ok_iff.1 hp
    refine parse_eq_ok_iff.2 ⟨ho, d, hd, ?_, rfl⟩
    rw [depthLimit_succ hD]
    exact Nat.le_succ_of_le hn
  | error f =>
    rw [parse_eq_error_iff]
    rcases parse_eq_error_iff.1 hp with ⟨why, ts, hs, hf⟩ | ⟨u, hs, hu, hf⟩
    · cases why with
      | expected x =>
        left
        have hsame : snag (D + 1) src = snag D src := snag_succ hD (by simp [hs])
        exact ⟨.expected x, ts, hsame.trans hs, hf ▸ Scope.failure_expected _ _ _ x ts⟩
      | tooDeep =>
        -- the failure is not about depth, so what stands there is a character that starts no token
        have hend : ¬ (ts = [] → ∃ o, (tokenize src).ending = .complete o) := by
          intro hend
          rw [Scope.failure_tooDeep hend] at hf
          exact h _ _ (hp.trans (congrArg _ hf.symm))
        obtain ⟨rfl, hunread⟩ := Classical.not_imp.1 hend
        cases hu : (tokenize src).ending with
        | complete o => exact absurd ⟨o, hu⟩ hunread
        | unreadable u =>
          rw [Scope.failure_nil_of_unreadable _ hu] at hf
          cases hs' : snag (D + 1) src with
          | none => exact .inr ⟨u, rfl, rfl, hf⟩
          | some e =>
            obtain ⟨why', rest⟩ := e
            obtain rfl := List.suffix_nil.1 (suffix_of_snag_succ hD hs hs')
            exact .inl ⟨why', [], rfl, hf ▸ Scope.failure_nil_of_unreadable _ hu why'⟩
    · right
      have hsame : snag (D + 1) src = snag D src := snag_succ hD (by simp [hs])
      exact ⟨u, hsame.trans hs, hu, hf⟩

/-- A text that is too deep with one level more was too deep before, and no further on. -/
theorem parse_tooDeep_of_succ (hD : 1 ≤ D) {o' n : Nat}
    (h : parse (D + 1) src = .error ⟨o', .tooDeep n⟩) :
    ∃ o ≤ o', parse D src = .error ⟨o, .tooDeep (depthLimit D)⟩ := by
  rcases parse_eq_error_iff.1 h with ⟨why, rest', hs', hf⟩ | ⟨u, -, -, hf⟩
  · obtain ⟨rfl, -, hend⟩ := Scope.failure_eq_tooDeep hf
    -- without a level too few the snag would be the same, and that is a level too few
    obtain ⟨rest, hs⟩ : ∃ rest, snag D src = some (.tooDeep, rest) := by
      by_contra hne
      have hsame := snag_succ hD fun rest e => hne ⟨rest, e⟩
      exact hne ⟨rest', hsame.symm.trans hs'⟩
    have hsuffix := suffix_of_snag_succ hD hs hs'
    have hend' : rest = [] → ∃ o, (tokenize src).ending = .complete o := by
      rintro rfl
      exact hend (List.suffix_nil.1 hsuffix)
    refine ⟨TokenRun.front ⟨rest, (tokenize src).ending⟩, ?_, ?_⟩
    · rw [Scope.failure_tooDeep hend] at hf
      obtain ⟨rfl, -⟩ := Failure.mk.inj hf
      exact front_tokenize_mono (Agenda.suffix_of_snag hs) hsuffix
    · exact parse_eq_error_iff.2 (.inl ⟨.tooDeep, rest, hs, Scope.failure_tooDeep hend'⟩)
  · cases hf

end Texts

/-- **The limit only turns results into failures of depth**: a program, or a failure that is not
about depth, is the same with every greater limit; and a text that is too deep for a limit is too
deep for every smaller one, at the same place or an earlier one. -/
theorem parse_greater_limit (D D' : Nat) (hD : 1 ≤ D) (hle : D ≤ D') (src : Text) :
    ((∀ o n, parse D src ≠ .error ⟨o, .tooDeep n⟩) → parse D' src = parse D src) ∧
      ∀ o' n, parse D' src = .error ⟨o', .tooDeep n⟩ →
        ∃ o ≤ o', parse D src = .error ⟨o, .tooDeep D⟩ := by
  have hlimit : depthLimit D = D := by
    unfold depthLimit
    rw [if_neg (by omega), Int.toNat_natCast]
  induction D', hle using Nat.le_induction with
  | base =>
    refine ⟨fun _ => rfl, fun o' n h => ⟨o', Nat.le_refl o', ?_⟩⟩
    rw [h, limit_of_tooDeep h, hlimit]
  | succ D' hle ih =>
    have hD' : (1 : Int) ≤ D' := by omega
    obtain ⟨ihsame, ihdeep⟩ := ih
    rw [Int.natCast_succ]
    constructor
    · intro h
      have hsame := ihsame h
      rw [parse_succ hD' (hsame ▸ h), hsame]
    · intro o' n h
      obtain ⟨o₁, ho₁, h₁⟩ := parse_tooDeep_of_succ hD' h
      obtain ⟨o, ho, h⟩ := ihdeep o₁ _ h₁
      exact ⟨o, ho.trans ho₁, h⟩

theorem parse_greater_limit_call :
    parse 3 (utf8 "f(g(1))") = .error ⟨7, .unexpectedEnd (.kind .semicolon)⟩ ∧
      parse 2 (utf8 "f(g(1))") = .error ⟨7, .unexpectedEnd (.kind .semicolon)⟩ ∧
      parse 2 (utf8 "f(g(h(1)));") = .error ⟨5, .tooDeep 2⟩ ∧
      ∃ o ≤ 5, parse 1 (utf8 "f(g(h(1)));") = .error ⟨o, .tooDeep 1⟩ := by
  have hend : parse 2 (utf8 "f(g(1))") = .error ⟨7, .unexpectedEnd (.kind .semicolon)⟩ :=
    eq_error_of_map (by decide +kernel)
  have hdeep : parse 2 (utf8 "f(g(h(1)));") = .error ⟨5, .tooDeep 2⟩ :=
    eq_error_of_map (by decide +kernel)
  have hsame := (parse_greater_limit 2 3 (by decide) (by decide) (utf8 "f(g(1))")).1 (by
    intro o n h
    cases hend.symm.trans h)
  exact ⟨hsame.trans hend, hend, hdeep,
    (parse_greater_limit 1 2 (by decide) (by decide) (utf8 "f(g(h(1)));")).2 5 2 hdeep⟩

end Scriptlet
