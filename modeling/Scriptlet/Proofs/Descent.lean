import Scriptlet.Parse.Descent
import Scriptlet.Proofs.Stream

/-!
# The parser on a cursor

The parser that reads its tokens from a cursor, one at a time and with one look ahead, gives the
program of the parser on the list of all tokens, or its failure (`descend_eq_parse`). A state of the
one parser stands for the tokens that the other has before it (`Descent.Sees`). The parsers agree
step by step (`Descent.Matches`), but for one thing: a character that starts no token is met by the
cursor when the last token is taken, and by the other parser when it looks for the token after that.
-/

namespace Scriptlet

theorem Cursor.kind_ne_of_find {c d : Cursor} {t : Token} (h : c.find Rule.table = .token t d) :
    t.kind ≠ .endOfInput := by
  cases find_eq_iff.1 h with
  | token _ _ hlexeme _ => exact hlexeme.kind_ne

namespace Descent

/-! ### States and tokens -/

/-- The state has the tokens before it, then their ending, and `d` levels are open. If there are no
tokens left, the current token is that for the end. -/
inductive Sees (e : Ending) (d : Nat) (s : Descent) : List Token → Prop where
  | cons {rest : List Token} :
      s.token.kind ≠ .endOfInput → (s.cursor.readAll Rule.table).1 = ⟨rest, e⟩ → s.depth = d →
      Sees e d s (s.token :: rest)
  | nil {o : Nat} : e = .complete o → s.token = ⟨.endOfInput, [], o, o⟩ → s.depth = d →
      Sees e d s []

/-- What the next token of a cursor is: the first of those that it has before it, the token for the
end, or there is a character in the way. -/
theorem exists_of_readAll {c : Cursor} {ts : List Token} {e : Ending}
    (h : (c.readAll Rule.table).1 = ⟨ts, e⟩) :
    (∃ t c', c.next Rule.table = (.ok t, c') ∧ ∀ d, Sees e d ⟨t, c', d⟩ ts) ∨
      ∃ u c', e = .unreadable u ∧ ts = [] ∧ c.next Rule.table = (.error u, c') := by
  cases hfind : c.find Rule.table with
  | token t c' =>
    rw [Cursor.readAll_of_token hfind] at h
    obtain ⟨rfl, rfl⟩ := TokenRun.mk.inj h
    exact .inl ⟨t, c', Cursor.next_of_token hfind,
      fun d => .cons (Cursor.kind_ne_of_find hfind) rfl rfl⟩
  | ended c' =>
    rw [Cursor.readAll_of_ended hfind] at h
    obtain ⟨rfl, rfl⟩ := TokenRun.mk.inj h
    exact .inl ⟨_, c', Cursor.next_of_ended hfind, fun d => .nil rfl rfl rfl⟩
  | stuck c' =>
    rw [Cursor.readAll_of_stuck hfind] at h
    obtain ⟨rfl, rfl⟩ := TokenRun.mk.inj h
    exact .inr ⟨_, c', rfl, rfl, Cursor.next_of_stuck hfind⟩

/-- What a step on tokens gives, and what one from a state does. If the tokens are used up in front
of a character that starts no token, only the latter knows. -/
inductive Matches (e : Ending) (d : Nat) {α : Type} {ts : List Token} {s : Descent} :
    Except Failure (Parsed α ts) → Except Failure (Moved α s) → Prop where
  | fail {f : Failure} : Matches e d (.error f) (.error f)
  | found {a : α} {rest : List Token} {s' : Descent} (h : rest.length < ts.length)
      (h' : s'.left < s.left) : Sees e d s' rest → Matches e d (.ok ⟨a, rest, h⟩) (.ok ⟨a, s', h'⟩)
  | stuck {a : α} {u : Unreadable} (h : [].length < ts.length) : e = .unreadable u →
      Matches e d (.ok ⟨a, [], h⟩) (.error u.failure)

/-- A step on tokens and one from a state agree wherever `d` levels are open. -/
structure Agrees (e : Ending) (d : Nat) {α : Type} (p : Step α)
    (q : (s : Descent) → Except Failure (Moved α s)) : Prop where
  sees : ∀ {s : Descent} {ts : List Token}, Sees e d s ts → Matches e d (p ts) (q s)
  stuck : ∀ {u : Unreadable}, e = .unreadable u → p [] = .error u.failure

variable {e : Ending} {d d' : Nat} {α β γ : Type}

theorem Matches.bind {ts ts' : List Token} {s s' : Descent} {p : Except Failure (Parsed α ts)}
    {q : Except Failure (Moved α s)} (h : Matches e d p q)
    {k : Parsed α ts → Except Failure (Parsed β ts')} {k' : Moved α s → Except Failure (Moved β s')}
    (hk : ∀ a rest hr s₁ hs, Sees e d s₁ rest → Matches e d' (k ⟨a, rest, hr⟩) (k' ⟨a, s₁, hs⟩))
    (hstuck : ∀ a hr u, e = .unreadable u →
      Matches (s := s') e d' (k ⟨a, [], hr⟩) (.error u.failure)) :
    Matches e d' (p >>= k) (q >>= k') := by
  cases h with
  | fail => exact .fail
  | found h h' hsees => exact hk _ _ h _ h' hsees
  | stuck h hu => exact hstuck _ h _ hu

/-- A token that the parser on tokens has seen already, and the parser on a cursor takes first. -/
theorem Matches.ok_bind {ts ts' : List Token} {s s' : Descent} {a : α} {rest : List Token}
    {hr : rest.length < ts.length} {q : Except Failure (Moved α s)}
    (h : Matches e d (.ok ⟨a, rest, hr⟩ : Except Failure (Parsed α ts)) q)
    {x : Except Failure (Parsed β ts')} {k' : Moved α s → Except Failure (Moved β s')}
    (hk : ∀ s₁ hs, Sees e d s₁ rest → Matches e d' x (k' ⟨a, s₁, hs⟩))
    (hstuck : ∀ u, e = .unreadable u → rest = [] → Matches (s := s') e d' x (.error u.failure)) :
    Matches e d' x (q >>= k') := by
  cases h with
  | found _ h' hsees => exact hk _ h' hsees
  | stuck _ hu => exact hstuck _ hu rfl

/-- A token that is seen already and makes up the whole value. -/
theorem Matches.ok_map {ts ts' : List Token} {s s' : Descent} {a : α} {rest : List Token}
    {hr : rest.length < ts.length} {q : Except Failure (Moved α s)}
    (h : Matches e d (.ok ⟨a, rest, hr⟩ : Except Failure (Parsed α ts)) q) (f : α → β)
    {hr' : rest.length < ts'.length} {hs : ∀ m : Moved α s, m.state.left < s'.left} :
    Matches e d (.ok ⟨f a, rest, hr'⟩)
      (q >>= fun m => pure (⟨f m.value, m.state, hs m⟩ : Moved β s')) := by
  refine h.ok_bind ?_ ?_
  · intro s₁ _ hsees
    exact .found _ _ hsees
  · rintro u hu rfl
    exact .stuck _ hu

/-- Changing the value found changes nothing else. -/
theorem Matches.map {ts ts' : List Token} {s s' : Descent} {p : Except Failure (Parsed α ts)}
    {q : Except Failure (Moved α s)} (h : Matches e d p q) (f : α → β)
    {hts : ∀ a : Parsed α ts, a.rest.length < ts'.length}
    {hs : ∀ a : Moved α s, a.state.left < s'.left} :
    Matches e d (p >>= fun a => pure ⟨f a.value, a.rest, hts a⟩)
      (q >>= fun a => pure (⟨f a.value, a.state, hs a⟩ : Moved β s')) :=
  h.bind (fun _ _ _ _ _ hsees => .found _ _ hsees) fun _ _ _ hu => .stuck _ hu

/-- One step after another: what comes behind the first has to agree, and to fail or to be through
if there is only a character that starts no token. -/
theorem Agrees.bind {p : Step α} {q : (s : Descent) → Except Failure (Moved α s)}
    (h : Agrees e d p q) {k : (ts : List Token) → Parsed α ts → Except Failure (Parsed β ts)}
    {k' : (s : Descent) → Moved α s → Except Failure (Moved β s)}
    (hk : ∀ ts s a rest hr s₁ hs, Sees e d s₁ rest →
      Matches e d (k ts ⟨a, rest, hr⟩) (k' s ⟨a, s₁, hs⟩))
    (hstuck : ∀ ts s a hr u, e = .unreadable u →
      Matches (s := s) e d (k ts ⟨a, [], hr⟩) (.error u.failure)) :
    Agrees e d (fun ts => p ts >>= k ts) fun s => q s >>= k' s where
  sees hsees := (h.sees hsees).bind (hk _ _) (hstuck _ _)
  stuck hu := by
    rw [h.stuck hu]
    rfl

theorem Agrees.map {p : Step α} {q : (s : Descent) → Except Failure (Moved α s)}
    (h : Agrees e d p q) (f : α → β) :
    Agrees e d (fun ts => p ts >>= fun a => pure ⟨f a.value, a.rest, a.shorter⟩)
      fun s => q s >>= fun a => pure ⟨f a.value, a.state, a.less⟩ :=
  h.bind (fun _ _ _ _ _ _ _ hsees => .found _ _ hsees) fun _ _ _ _ _ hu => .stuck _ hu

theorem Agrees.bind_nil {p : Step α} {q : (s : Descent) → Except Failure (Moved α s)}
    (h : Agrees e d p q) {u : Unreadable} (hu : e = .unreadable u) {ts : List Token} {s : Descent}
    (k : Parsed α [] → Except Failure (Parsed β ts)) :
    Matches (s := s) e d' (p [] >>= k) (.error u.failure) := by
  rw [h.stuck hu]
  exact .fail

/-! ### Tokens -/

section

variable {sc : Scope} {s : Descent} {ts : List Token}

theorem Sees.startsWithKind_iff (h : Sees e d s ts) {k : Kind} (hk : k ≠ .endOfInput) :
    startsWithKind k ts = true ↔ s.token.kind = k := by
  cases h with
  | cons hne hrest hd => exact decide_eq_true_iff
  | nil he ht hd =>
    rw [ht]
    exact iff_of_false Bool.false_ne_true fun h => hk h.symm

theorem Sees.isEmpty_iff (h : Sees e d s ts) : ts.isEmpty = true ↔ s.token.kind = .endOfInput := by
  cases h with
  | cons hne hrest hd => exact iff_of_false Bool.false_ne_true hne
  | nil he ht hd =>
    rw [ht]
    exact iff_of_true rfl rfl

theorem Sees.unexpected (h : Sees sc.ending d s ts) (x : Expectation) :
    sc.unexpected x ts = s.unexpected x := by
  cases h with
  | cons hne hrest hd =>
    rw [Descent.unexpected, if_neg hne]
    rfl
  | nil he ht hd =>
    rw [Descent.unexpected, ht, Scope.unexpected, Scope.failAt, he]
    rfl

theorem Sees.tooDeep (h : Sees sc.ending d s ts) :
    sc.tooDeep ts = ⟨s.token.start, .tooDeep sc.limit⟩ := by
  cases h with
  | cons hne hrest hd => rfl
  | nil he ht hd => rw [ht, Scope.tooDeep, Scope.failAt, he]

theorem unexpected_nil {u : Unreadable} (hu : sc.ending = .unreadable u) (x : Expectation) :
    sc.unexpected x [] = u.failure := by
  rw [Scope.unexpected, Scope.failAt, hu]
  rfl

theorem tooDeep_nil {u : Unreadable} (hu : sc.ending = .unreadable u) :
    sc.tooDeep [] = u.failure := by
  rw [Scope.tooDeep, Scope.failAt, hu]
  rfl

/-- Taking a token leaves those behind it. -/
theorem matches_advance {rest : List Token} (hne : s.token.kind ≠ .endOfInput)
    (hrest : (s.cursor.readAll Rule.table).1 = ⟨rest, e⟩) (hd : s.depth = d)
    (hlt : rest.length < (s.token :: rest).length) :
    Matches e d (.ok ⟨s.token, rest, hlt⟩) (s.advance hne) := by
  unfold advance
  obtain ⟨t, c, hnext, hsees⟩ | ⟨u, c, hu, rfl, hnext⟩ := exists_of_readAll hrest
  · split
    · rename_i hn
      cases hn.symm.trans hnext
    · rename_i t' c' hn
      obtain ⟨ht, rfl⟩ := Prod.mk.inj (hn.symm.trans hnext)
      obtain rfl := Except.ok.inj ht
      exact .found _ _ (hd ▸ hsees s.depth)
  · split
    · rename_i hn
      obtain ⟨hu', -⟩ := Prod.mk.inj (hn.symm.trans hnext)
      obtain rfl := Except.error.inj hu'
      exact .stuck _ hu
    · rename_i hn
      cases hn.symm.trans hnext

theorem agrees_expect (sc : Scope) (d : Nat) {k : Kind} (hk : k ≠ .endOfInput) :
    Agrees sc.ending d (sc.expect k) fun s => s.expect k where
  sees := by
    intro s ts h
    by_cases hkind : s.token.kind = k
    · cases h with
      | cons hne hrest hd =>
        rw [Scope.expect, if_pos hkind, expect, dif_pos ⟨hkind, hk⟩]
        exact matches_advance hne hrest hd _
      | nil he ht hd =>
        rw [ht] at hkind
        exact absurd hkind.symm hk
    · rw [expect, dif_neg fun h => hkind h.1, ← h.unexpected]
      cases h with
      | cons hne hrest hd =>
        rw [Scope.expect, if_neg hkind]
        exact .fail
      | nil he ht hd => exact .fail
  stuck hu := by rw [Scope.expect, unexpected_nil hu]

/-- A look at the token behind a name. -/
theorem peekIs_eq {rest : List Token} (hrest : (s.cursor.readAll Rule.table).1 = ⟨rest, e⟩)
    {k : Kind} (hk : k ≠ .endOfInput) :
    s.peekIs k = .ok (startsWithKind k rest) ∨ ∃ u, e = .unreadable u ∧ rest = [] ∧
      s.peekIs k = .error u.failure := by
  rw [peekIs, Cursor.peek]
  obtain ⟨t, c, hnext, hsees⟩ | ⟨u, c, hu, rfl, hnext⟩ := exists_of_readAll hrest
  · refine .inl ?_
    rw [hnext, Bool.eq_iff_iff.2 ((hsees 0).startsWithKind_iff hk |>.trans decide_eq_true_iff.symm)]
  · exact .inr ⟨u, hu, rfl, by rw [hnext]⟩

end

/-! ### Names and types -/

section

variable (sc : Scope) (d : Nat)

theorem agrees_name : Agrees sc.ending d sc.name name :=
  (agrees_expect sc d (k := .identifier) (by decide)).map
    fun t => (⟨t.span, t.text, none⟩ : Identifier)

theorem agrees_type : Agrees sc.ending d sc.type type := by
  have hname := agrees_expect sc d (k := .identifier) (by decide)
  refine (agrees_expect sc d (by decide)).bind ?_ ?_
  · intro ts s c rest hr s' hs hsees
    exact (hname.sees hsees).map id
  · intro ts s c hr u hu
    exact hname.bind_nil hu _

theorem agrees_typedName : Agrees sc.ending d sc.typedName typedName := by
  refine (agrees_name sc d).bind ?_ ?_
  · intro ts s id rest hr s' hs hsees
    simp only [hsees.startsWithKind_iff (k := .colon) (by decide)]
    split
    · exact ((agrees_type sc d).sees hsees).map fun t => { id with typeName := some t.text }
    · exact .found _ _ hsees
  · intro ts s id hr u hu
    exact .stuck _ hu

end

/-! ### Values divided by commas -/

/-- Values divided by commas, told with the steps that the loop of a parser on a cursor takes. -/
theorem commaList_eq (sc : Scope) (p : Step α) (ts : List Token) :
    Scope.commaList p ts = do
      let a ← p ts
      if startsWithKind .comma a.rest then
        let c ← sc.expect .comma a.rest
        let l ← Scope.commaList p c.rest
        return ⟨a.value :: l.value, l.rest,
          Nat.lt_trans l.shorter (Nat.lt_trans c.shorter a.shorter)⟩
      else return ⟨[a.value], a.rest, a.shorter⟩ := by
  rw [Scope.commaList]
  cases p ts with
  | error f => rfl
  | ok a =>
    obtain ⟨a, rest, h⟩ := a
    cases rest with
    | nil => rfl
    | cons t rest =>
      have hstarts : startsWithKind .comma (t :: rest) = decide (t.kind = .comma) := rfl
      by_cases hkind : t.kind = .comma
      · simp only [bind, Except.bind, hstarts, hkind, Scope.expect, if_true, decide_true]
        cases Scope.commaList p rest <;> rfl
      · simp only [bind, Except.bind, hstarts, hkind, if_false, decide_false, Bool.false_eq_true]
        rfl

/-- The loop of a parser on a cursor agrees with the recursion on tokens if what is read in it
does. -/
theorem Agrees.commaList {p : Step α} {q : (s : Descent) → Except Failure (Moved α s)}
    {loop : (s : Descent) → Except Failure (Moved (List α) s)} {sc : Scope}
    (h : Agrees sc.ending d p q) (hloop : ∀ s, loop s = do
      let a ← q s
      if a.state.token.kind = .comma then
        let c ← a.state.expect .comma
        let l ← loop c.state
        return ⟨a.value :: l.value, l.state, Nat.lt_trans l.less (Nat.lt_trans c.less a.less)⟩
      else return ⟨[a.value], a.state, a.less⟩) :
    Agrees sc.ending d (Scope.commaList p) loop where
  sees := by
    have hcomma := agrees_expect sc d (k := .comma) (by decide)
    intro s ts hsees
    induction hn : ts.length using Nat.strong_induction_on generalizing s ts with
    | _ n ih =>
      rw [commaList_eq sc, hloop]
      refine (h.sees hsees).bind ?_ ?_
      · intro a rest hr s' hs hsees
        simp only [hsees.startsWithKind_iff (k := .comma) (by decide)]
        split
        · refine (hcomma.sees hsees).bind ?_ ?_
          · intro c rest' hr' s'' hs' hsees
            exact (ih rest'.length (by omega) hsees rfl).map (a :: ·)
          · intro c hr' u hu
            rw [commaList_eq sc, h.stuck hu]
            exact .fail
        · exact .found _ _ hsees
      · intro a hr u hu
        exact .stuck _ hu
  stuck hu := by
    rw [Scope.commaList, h.stuck hu]

theorem agrees_parameters (sc : Scope) (d : Nat) : Agrees sc.ending d sc.parameters parameters := by
  have hclose := agrees_expect sc d (k := .closeParen) (by decide)
  have hlist : Agrees sc.ending d (Scope.commaList sc.typedName) parameterList := by
    apply (agrees_typedName sc d).commaList
    intro s
    rw [parameterList]
  refine (agrees_expect sc d (by decide)).bind ?_ ?_
  · intro ts s o rest hr s' hs hsees
    simp only [hsees.startsWithKind_iff (k := .closeParen) (by decide)]
    split
    · exact (hclose.sees hsees).map fun _ => []
    · refine (hlist.sees hsees).bind ?_ ?_
      · intro l rest' hr' s'' hs' hsees
        exact (hclose.sees hsees).map fun _ => l
      · intro l hr' u hu
        exact hclose.bind_nil hu _
  · intro ts s o hr u hu
    exact hlist.bind_nil hu _

/-! ### Levels -/

section

variable {s : Descent} {ts : List Token}

theorem Sees.deeper (h : Sees e d s ts) : Sees e (d + 1) s.deeper ts := by
  cases h with
  | cons hne hrest hd => exact .cons hne hrest (congrArg (· + 1) hd)
  | nil he ht hd => exact .nil he ht (congrArg (· + 1) hd)

theorem Sees.leave (h : Sees e (d + 1) s ts) : Sees e d s.leave ts := by
  cases h with
  | cons hne hrest hd => exact .cons hne hrest (congrArg (· - 1) hd)
  | nil he ht hd => exact .nil he ht (congrArg (· - 1) hd)

theorem Sees.depth_eq (h : Sees e d s ts) : s.depth = d := by
  cases h with
  | cons _ _ hd => exact hd
  | nil _ _ hd => exact hd

end

/-- A level that may not be opened. -/
theorem agrees_tooDeep {sc : Scope} {q : (s : Descent) → Except Failure (Moved α s)}
    (hd : sc.limit ≤ d) (hq : ∀ s f, s.enter sc.limit = .error f → q s = .error f) :
    Agrees sc.ending d (fun ts => .error (sc.tooDeep ts)) q where
  sees := by
    intro s ts h
    rw [hq s (sc.tooDeep ts)]
    · exact .fail
    · rw [h.tooDeep, enter, if_pos (h.depth_eq ▸ hd)]
  stuck hu := by rw [tooDeep_nil hu]

/-! ### Expressions -/

section

variable {sc : Scope} {budget : Nat}

theorem Agrees.arguments {p : Step Expression} (hd : d < sc.limit)
    (h : Agrees sc.ending (d + 1) p (expression sc.limit)) :
    Agrees sc.ending d (sc.arguments p) (arguments sc.limit) where
  sees := by
    intro s ts hsees
    have hclose := agrees_expect sc (d + 1) (k := .closeParen) (by decide)
    have hlist : Agrees sc.ending (d + 1) (Scope.commaList p) (argumentList sc.limit) := by
      apply h.commaList
      intro s
      rw [argumentList]
    have henter : s.enter sc.limit = .ok () := if_neg (by rw [hsees.depth_eq]; omega)
    rw [Descent.arguments, henter]
    refine ((agrees_expect sc (d + 1) (by decide)).sees hsees.deeper).bind ?_ ?_
    · intro o rest hr s' hs hsees
      refine (hlist.sees hsees).bind ?_ ?_
      · intro l rest' hr' s'' hs' hsees
        refine (hclose.sees hsees).bind ?_ ?_
        · intro c rest'' hr'' s''' hs'' hsees
          exact .found _ _ hsees.leave
        · intro c hr'' u hu
          exact .stuck _ hu
      · intro l hr' u hu
        exact hclose.bind_nil hu _
    · intro o hr u hu
      exact hlist.bind_nil hu _
  stuck hu := by
    rw [Scope.arguments, (agrees_expect sc d (by decide)).stuck hu]
    rfl

theorem Agrees.expressionWith {args : Step (List Expression × Token)}
    (h : Agrees sc.ending d args (Descent.arguments sc.limit)) :
    Agrees sc.ending d (sc.expressionWith args) (expression sc.limit) where
  sees := by
    intro s ts hsees
    have hunexpected := hsees.unexpected .expression
    have hname := (agrees_name sc d).sees hsees
    have hnumber := (agrees_expect sc d (k := .number) (by decide)).sees hsees
    have hstring := (agrees_expect sc d (k := .string) (by decide)).sees hsees
    rw [expression]
    cases hsees with
    | nil he ht hd =>
      rw [ht, ← hunexpected]
      exact .fail
    | @cons rest hne hrest hd =>
      rw [Scope.expressionWith]
      cases hkind : s.token.kind with
      | identifier =>
        rw [Scope.name, Scope.expect, if_pos hkind] at hname
        obtain hpeek | ⟨u, hu, rfl, hpeek⟩ := peekIs_eq hrest (k := .openParen) (by decide)
        · simp only [hpeek]
          refine Matches.ok_bind hname ?_ ?_
          · intro s' hs hsees
            split
            · exact (h.sees hsees).map fun a =>
                Expression.call ⟨s.token.start, a.2.stop⟩ ⟨s.token.span, s.token.text, none⟩ a.1
            · exact .found _ _ hsees
          · rintro u hu rfl
            exact .stuck _ hu
        · simp only [hpeek]
          exact .stuck _ hu
      | number =>
        rw [Scope.expect, if_pos hkind] at hnumber
        exact hnumber.ok_map fun t => Expression.number t.span (Binary64.ofDigits t.text) t.text
      | string =>
        rw [Scope.expect, if_pos hkind] at hstring
        exact hstring.ok_map fun t => Expression.string t.span (t.text.drop 1).dropLast t.text
      | _ =>
        rw [hunexpected]
        exact .fail
  stuck hu := by rw [Scope.expressionWith, unexpected_nil hu]

end

/-- **Expressions** agree, where the levels that are open and those that may still be opened make up
the limit. -/
theorem agrees_expression (sc : Scope) (budget : Nat) {d : Nat} (hd : d + budget = sc.limit) :
    Agrees sc.ending d (sc.expression budget) (expression sc.limit) := by
  induction budget generalizing d with
  | zero =>
    refine (agrees_tooDeep (by omega) fun s f hf => ?_).expressionWith
    rw [arguments, hf]
    rfl
  | succ budget ih => exact ((ih (d := d + 1) (by omega)).arguments (by omega)).expressionWith

/-! ### Statements -/

section

variable (sc : Scope) (d : Nat)

theorem agrees_declaration : Agrees sc.ending d sc.declaration declaration := by
  have hfunction := agrees_expect sc d (k := .function) (by decide)
  have hname := agrees_name sc d
  have hparameters := agrees_parameters sc d
  have htype := agrees_type sc d
  refine (agrees_expect sc d (by decide)).bind ?_ ?_
  · intro ts s k rest hr s' hs hsees
    refine (hfunction.sees hsees).bind ?_ ?_
    · intro f rest hr s' hs hsees
      refine (hname.sees hsees).bind ?_ ?_
      · intro id rest hr s' hs hsees
        refine (hparameters.sees hsees).bind ?_ ?_
        · intro ps rest hr s' hs hsees
          exact (htype.sees hsees).map fun t =>
            Statement.declaration ⟨k.start, t.stop⟩ id ps (some t.text)
        · intro ps hr u hu
          exact htype.bind_nil hu _
      · intro id hr u hu
        exact hparameters.bind_nil hu _
    · intro f hr u hu
      exact hname.bind_nil hu _
  · intro ts s k hr u hu
    exact hfunction.bind_nil hu _

variable {sc} {d}

theorem Agrees.constant {p : Step Expression} (h : Agrees sc.ending d p (expression sc.limit)) :
    Agrees sc.ending d (sc.constant p) (constant sc.limit) := by
  have hname := agrees_typedName sc d
  have hassign := agrees_expect sc d (k := .assign) (by decide)
  refine (agrees_expect sc d (by decide)).bind ?_ ?_
  · intro ts s k rest hr s' hs hsees
    refine (hname.sees hsees).bind ?_ ?_
    · intro id rest hr s' hs hsees
      refine (hassign.sees hsees).bind ?_ ?_
      · intro a rest hr s' hs hsees
        exact (h.sees hsees).map fun v => Statement.constant ⟨k.start, v.span.stop⟩ id v
      · intro a hr u hu
        exact h.bind_nil hu _
    · intro id hr u hu
      exact hassign.bind_nil hu _
  · intro ts s k hr u hu
    exact hname.bind_nil hu _

theorem Agrees.returning {p : Step Expression} (h : Agrees sc.ending d p (expression sc.limit)) :
    Agrees sc.ending d (sc.returning p) (returning sc.limit) := by
  refine (agrees_expect sc d (by decide)).bind ?_ ?_
  · intro ts s k rest hr s' hs hsees
    simp only [Bool.or_eq_true, hsees.isEmpty_iff,
      hsees.startsWithKind_iff (k := .semicolon) (by decide), or_comm]
    split
    · exact .found _ _ hsees
    · exact (h.sees hsees).map fun v => Statement.return ⟨k.start, v.span.stop⟩ (some v)
  · intro ts s k hr u hu
    exact .stuck _ hu

theorem Agrees.expressionStatement {p : Step Expression}
    (h : Agrees sc.ending d p (expression sc.limit)) :
    Agrees sc.ending d (Scope.expressionStatement p) (expressionStatement sc.limit) :=
  h.map Statement.expression

theorem Agrees.terminated {p : Step Statement}
    {q : (s : Descent) → Except Failure (Moved Statement s)} (h : Agrees sc.ending d p q) :
    Agrees sc.ending d (sc.terminated p) fun s => q s >>= Moved.terminated := by
  have hsemicolon := agrees_expect sc d (k := .semicolon) (by decide)
  refine h.bind ?_ ?_
  · intro ts s a rest hr s' hs hsees
    exact (hsemicolon.sees hsees).map fun _ => a
  · intro ts s a hr u hu
    exact hsemicolon.bind_nil hu _

theorem Agrees.definition {p : Step (Span × List Statement)}
    (h : Agrees sc.ending d p (block sc.limit)) :
    Agrees sc.ending d (sc.definition p) (definition sc.limit) where
  sees := by
    have hname := agrees_name sc d
    have hparameters := agrees_parameters sc d
    have htype := agrees_type sc d
    intro s ts hsees
    rw [Descent.definition]
    refine ((agrees_expect sc d (by decide)).sees hsees).bind ?_ ?_
    · intro f rest hr s' hs hsees
      refine (hname.sees hsees).bind ?_ ?_
      · intro id rest hr s' hs hsees
        refine (hparameters.sees hsees).bind ?_ ?_
        · intro ps rest hr s' hs hsees
          simp only [hsees.startsWithKind_iff (k := .colon) (by decide)]
          split
          · refine (htype.sees hsees).bind ?_ ?_
            · intro t rest hr s' hs hsees
              exact (h.sees hsees).map fun b =>
                Statement.definition ⟨f.start, b.1.stop⟩ id ps (some t.text) b.1 b.2
            · intro t hr u hu
              exact h.bind_nil hu _
          · exact (h.sees hsees).map fun b =>
              Statement.definition ⟨f.start, b.1.stop⟩ id ps none b.1 b.2
        · intro ps hr u hu
          exact h.bind_nil hu _
      · intro id hr u hu
        exact hparameters.bind_nil hu _
    · intro f hr u hu
      exact hname.bind_nil hu _
  stuck hu := by
    rw [Scope.definition, (agrees_expect sc d (by decide)).stuck hu]
    rfl

theorem untilBrace_nil {p : Step α} {u : Unreadable} (hu : sc.ending = .unreadable u) :
    sc.untilBrace p [] = .error u.failure := by
  rw [Scope.untilBrace, unexpected_nil hu]

/-- Where no closing brace stands in front, a value does. -/
theorem untilBrace_cons {p : Step α} {t : Token} (ht : t.kind ≠ .closeBrace) (rest : List Token) :
    sc.untilBrace p (t :: rest) = do
      let a ← p (t :: rest)
      let b ← sc.untilBrace p a.rest
      return ⟨(a.value :: b.value.1, b.value.2), b.rest, Nat.lt_trans b.shorter a.shorter⟩ := by
  rw [Scope.untilBrace, if_neg ht]
  cases p (t :: rest) with
  | error f => rfl
  | ok a =>
    simp only [bind, Except.bind]
    cases sc.untilBrace p a.rest <;> rfl

theorem Agrees.body {p : Step Statement} (h : Agrees sc.ending d p (statement sc.limit)) :
    Agrees sc.ending d (sc.untilBrace p) (body sc.limit) where
  sees := by
    intro s ts hsees
    induction hn : ts.length using Nat.strong_induction_on generalizing s ts with
    | _ n ih =>
      have hbrace := (agrees_expect sc d (k := .closeBrace) (by decide)).sees hsees
      have hunexpected := hsees.unexpected (.kind .closeBrace)
      have hfirst := h.sees hsees
      rw [Descent.body]
      cases hsees with
      | nil he ht hd =>
        rw [Scope.untilBrace, hunexpected, ht, if_neg (by simp), if_pos rfl]
        exact .fail
      | @cons rest hne hrest hd =>
        by_cases hkind : s.token.kind = .closeBrace
        · rw [Scope.expect, if_pos hkind] at hbrace
          rw [Scope.untilBrace, if_pos hkind, if_pos hkind]
          exact hbrace.ok_map fun t => ([], t)
        · rw [untilBrace_cons hkind, if_neg hkind, if_neg hne]
          refine hfirst.bind ?_ ?_
          · intro a rest' hr s' hs hsees
            exact (ih rest'.length (by omega) hsees rfl).map fun b => (a :: b.1, b.2)
          · intro a hr u hu
            rw [untilBrace_nil hu]
            exact .fail
  stuck := untilBrace_nil

theorem Agrees.block {p : Step Statement} (hd : d < sc.limit)
    (h : Agrees sc.ending (d + 1) p (statement sc.limit)) :
    Agrees sc.ending d (sc.block p) (block sc.limit) where
  sees := by
    intro s ts hsees
    have henter : s.enter sc.limit = .ok () := if_neg (by rw [hsees.depth_eq]; omega)
    rw [Descent.block, henter]
    refine ((agrees_expect sc (d + 1) (by decide)).sees hsees.deeper).bind ?_ ?_
    · intro o rest hr s' hs hsees
      refine (h.body.sees hsees).bind ?_ ?_
      · intro b rest' hr' s'' hs' hsees
        exact .found _ _ hsees.leave
      · intro b hr' u hu
        exact .stuck _ hu
    · intro o hr u hu
      exact h.body.bind_nil hu _
  stuck hu := by
    rw [Scope.block, (agrees_expect sc d (by decide)).stuck hu]
    rfl

theorem Agrees.statementWith {p : Step Expression} {b : Step (Span × List Statement)}
    (h : Agrees sc.ending d p (expression sc.limit))
    (hb : Agrees sc.ending d b (Descent.block sc.limit)) :
    Agrees sc.ending d (sc.statementWith p b) (statement sc.limit) where
  sees := by
    intro s ts hsees
    have hexpression := h.expressionStatement.terminated.sees hsees
    have hunexpected := hsees.unexpected .statement
    have hdefinition := hb.definition.sees hsees
    have hdeclaration := (agrees_declaration sc d).terminated.sees hsees
    have hconstant := h.constant.terminated.sees hsees
    have hreturning := h.returning.terminated.sees hsees
    rw [statement]
    cases hsees with
    | nil he ht hd =>
      rw [ht, ← hunexpected]
      exact .fail
    | cons hne hrest hd =>
      rw [Scope.statementWith]
      cases s.token.kind with
      | function => exact hdefinition
      | declare => exact hdeclaration
      | const => exact hconstant
      | «return» => exact hreturning
      | identifier => exact hexpression
      | number => exact hexpression
      | string => exact hexpression
      | _ =>
        rw [hunexpected]
        exact .fail
  stuck hu := by rw [Scope.statementWith, unexpected_nil hu]

end

/-- **Statements** agree. -/
theorem agrees_statement (sc : Scope) (budget : Nat) {d : Nat} (hd : d + budget = sc.limit) :
    Agrees sc.ending d (sc.statement budget) (statement sc.limit) := by
  induction budget generalizing d with
  | zero =>
    refine (agrees_expression sc 0 hd).statementWith (agrees_tooDeep (by omega) fun s f hf => ?_)
    rw [block, hf]
    rfl
  | succ budget ih =>
    exact (agrees_expression sc (budget + 1) hd).statementWith
      ((ih (d := d + 1) (by omega)).block (by omega))

/-- **Programs** agree. -/
theorem statements_eq (sc : Scope) {s : Descent} {ts : List Token} (h : Sees sc.ending 0 s ts) :
    statements sc.limit s = sc.untilEnd (sc.statement sc.limit) ts := by
  induction hn : ts.length using Nat.strong_induction_on generalizing s ts with
  | _ n ih =>
    have hfirst := (agrees_statement sc sc.limit (Nat.zero_add _)).sees h
    rw [statements]
    cases h with
    | nil he ht hd =>
      rw [ht, if_pos rfl, Scope.untilEnd, he]
      rfl
    | @cons rest hne hrest hd =>
      rw [if_neg hne, Scope.untilEnd]
      generalize sc.statement sc.limit (s.token :: rest) = x at hfirst
      generalize s.statement sc.limit = y at hfirst
      cases hfirst with
      | fail => rfl
      | @found a rest' s' hlt hless hsees =>
        show (statements sc.limit s' >>= fun as => .ok (a :: as)) = _
        rw [ih rest'.length (by omega) hsees rfl]
        simp only
        cases sc.untilEnd (sc.statement sc.limit) rest' <;> rfl
      | @stuck a u hlt hu =>
        simp only
        rw [Scope.untilEnd, hu]
        rfl

end Descent

/-- **The parser on a cursor is the parser on all tokens**: it gives the same program, or the same
failure. -/
theorem descend_eq_parse (maxDepth : Int) (t : Text) : descend maxDepth t = parse maxDepth t := by
  have hread : ((Cursor.start t).readAll Rule.table).1 =
      ⟨(tokenize t).tokens, (tokenize t).ending⟩ := rfl
  rw [descend, parse]
  obtain ⟨first, c, hnext, hsees⟩ | ⟨u, c, hu, htokens, hnext⟩ := Descent.exists_of_readAll hread
  · rw [hnext]
    simp only
    rw [Descent.statements_eq ⟨(tokenize t).ending, depthLimit maxDepth⟩ (hsees 0)]
  · rw [hnext, htokens]
    simp only
    rw [Scope.untilEnd, hu]
    rfl

end Scriptlet
