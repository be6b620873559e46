import Scriptlet.Proofs.Grammar

/-!
# Parsing is deriving

The parser accepts exactly its grammar. Each step of the parser reads the phrases of one part of the
grammar: what it gives comes from a phrase that the tokens are the leaves of (`Reads.sound`), and it
gives every such phrase if no token follows with which the phrase would go on (`Reads.complete`). So
a text has a tree if and only if its tokens have a derivation within the limit on nesting, and then
the tree is that of the derivation, which is the only one.
-/

namespace Scriptlet

open Grammar

/-! ### What a step gives -/

/-- The step ended well, with the value `v` and the tokens `rest` left. -/
def Gives {α : Type} {ts : List Token} (x : Except Failure (Parsed α ts)) (v : α)
    (rest : List Token) : Prop :=
  ∃ h, x = .ok ⟨v, rest, h⟩

section Gives

variable {α β : Type} {ts us rest : List Token} {v : α}

theorem Gives.shorter {x : Except Failure (Parsed α ts)} (h : Gives x v rest) :
    rest.length < ts.length := by
  obtain ⟨hlt, -⟩ := h
  exact hlt

@[simp] theorem gives_ok {u : α} {mid : List Token} {h : mid.length < ts.length} :
    Gives (.ok ⟨u, mid, h⟩ : Except Failure (Parsed α ts)) v rest ↔ u = v ∧ mid = rest := by
  constructor
  · rintro ⟨h', e⟩
    cases e
    exact ⟨rfl, rfl⟩
  · rintro ⟨rfl, rfl⟩
    exact ⟨h, rfl⟩

@[simp] theorem gives_pure {u : α} {mid : List Token} {h : mid.length < ts.length} :
    Gives (pure ⟨u, mid, h⟩ : Except Failure (Parsed α ts)) v rest ↔ u = v ∧ mid = rest := gives_ok

@[simp] theorem not_gives_error {f : Failure} :
    ¬ Gives (.error f : Except Failure (Parsed α ts)) v rest := by
  rintro ⟨_, e⟩
  cases e

theorem gives_bind {x : Except Failure (Parsed β us)}
    {k : Parsed β us → Except Failure (Parsed α ts)} :
    Gives (x >>= k) v rest ↔ ∃ u mid h, x = .ok ⟨u, mid, h⟩ ∧ Gives (k ⟨u, mid, h⟩) v rest := by
  constructor
  · rintro ⟨h, e⟩
    cases x with
    | error f => cases e
    | ok p => exact ⟨p.value, p.rest, p.shorter, rfl, h, e⟩
  · rintro ⟨u, mid, h, rfl, hk⟩
    exact hk

theorem exists_ok_iff {x : Except Failure (Parsed α ts)} :
    (∃ h, x = .ok ⟨v, rest, h⟩) ↔ Gives x v rest := Iff.rfl

theorem gives_ite {c : Prop} [Decidable c] {x y : Except Failure (Parsed α ts)} :
    Gives (if c then x else y) v rest ↔ c ∧ Gives x v rest ∨ ¬ c ∧ Gives y v rest := by
  by_cases h : c <;> simp [h]

end Gives

/-- The tokens `ts` begin with the leaves `ls`, and `rest` comes after them. -/
def Consumes : List (Kind × Token) → List Token → List Token → Prop
  | [], ts, rest => ts = rest
  | (k, t) :: ls, ts, rest => ∃ mid, ts = t :: mid ∧ t.kind = k ∧ Consumes ls mid rest

theorem consumes_append {ls ls' : List (Kind × Token)} {ts rest : List Token} :
    Consumes (ls ++ ls') ts rest ↔ ∃ mid, Consumes ls ts mid ∧ Consumes ls' mid rest := by
  induction ls generalizing ts with
  | nil => simp [Consumes]
  | cons l ls ih =>
    obtain ⟨k, t⟩ := l
    simp only [List.cons_append, Consumes, ih]
    constructor
    · rintro ⟨mid, rfl, rfl, mid', h, h'⟩
      exact ⟨mid', ⟨mid, rfl, rfl, h⟩, h'⟩
    · rintro ⟨mid', ⟨mid, rfl, rfl, h⟩, h'⟩
      exact ⟨mid, rfl, rfl, mid', h, h'⟩

/-- The tokens are consumed to the last if they are the leaves. -/
theorem consumes_nil_iff {ls : List (Kind × Token)} {ts : List Token} :
    Consumes ls ts [] ↔ ts.map (fun t => (t.kind, t)) = ls := by
  induction ls generalizing ts with
  | nil => simp [Consumes]
  | cons l ls ih =>
    obtain ⟨k, t⟩ := l
    simp only [Consumes, ih, List.map_eq_cons_iff, Prod.mk.injEq]
    constructor
    · rintro ⟨mid, rfl, rfl, h⟩
      exact ⟨t, mid, rfl, ⟨rfl, rfl⟩, h⟩
    · rintro ⟨t, mid, rfl, ⟨rfl, rfl⟩, h⟩
      exact ⟨mid, rfl, rfl, h⟩

/-- None of the kinds comes next. -/
def Ends (ks : List Kind) (rest : List Token) : Prop := ∀ t ∈ rest.head?, t.kind ∉ ks

@[simp] theorem ends_cons {ks : List Kind} {t : Token} {rest : List Token} :
    Ends ks (t :: rest) ↔ t.kind ∉ ks := by
  simp [Ends]

theorem Ends.mono {ks ks' : List Kind} {rest : List Token} (h : Ends ks rest) (hk : ks' ⊆ ks) :
    Ends ks' rest := fun t ht hm => h t ht (hk hm)

theorem startsWithKind_eq_false {ks : List Kind} {k : Kind} {rest : List Token} (h : Ends ks rest)
    (hk : k ∈ ks) : ¬ startsWithKind k rest = true := by
  cases rest with
  | nil => simp [startsWithKind]
  | cons t rest =>
    have := ends_cons.1 h
    simp only [startsWithKind, decide_eq_true_eq]
    rintro rfl
    exact this hk

/-- The step reads the phrases that are good: it gives the value of one whose leaves it consumes,
and it reads each of them before tokens that are of none of the kinds `ks`, which would go on with
the phrase. -/
structure Reads {α β : Type} (p : Step α) (leaves : β → List (Kind × Token)) (value : β → α)
    (good : β → Prop) (ks : List Kind) : Prop where
  sound : ∀ {ts v rest}, Gives (p ts) v rest → ∃ b, Consumes (leaves b) ts rest ∧ good b ∧
    value b = v
  complete : ∀ {ts b rest}, Consumes (leaves b) ts rest → good b → Ends ks rest →
    Gives (p ts) (value b) rest

/-- A step whose phrases nothing goes on with gives exactly their values. -/
theorem Reads.gives_iff {α β : Type} {p : Step α} {leaves : β → List (Kind × Token)} {value : β → α}
    {good : β → Prop} (h : Reads p leaves value good []) {ts rest : List Token} {v : α} :
    Gives (p ts) v rest ↔ ∃ b, Consumes (leaves b) ts rest ∧ good b ∧ value b = v := by
  constructor
  · exact h.sound
  · rintro ⟨b, hb, hg, rfl⟩
    exact h.complete hb hg fun _ _ => List.not_mem_nil

namespace Scope

variable {sc : Scope} {ts rest : List Token}

theorem gives_expect {k : Kind} {t : Token} :
    Gives (sc.expect k ts) t rest ↔ ts = t :: rest ∧ t.kind = k := by
  cases ts with
  | nil => simp [expect]
  | cons u ts =>
    by_cases h : u.kind = k
    · simp only [expect, h, if_true, gives_ok, List.cons.injEq]
      constructor
      · rintro ⟨rfl, rfl⟩
        exact ⟨⟨rfl, rfl⟩, h⟩
      · exact And.left
    · simp only [expect, h, if_false, not_gives_error, List.cons.injEq, false_iff]
      rintro ⟨⟨rfl, rfl⟩, hk⟩
      exact h hk

/-! ### Names and types -/

theorem gives_name {v : Identifier} :
    Gives (sc.name ts) v rest ↔ ∃ t, Consumes [(.identifier, t)] ts rest ∧ nameTree t = v := by
  simp only [name, gives_bind, gives_pure, exists_and_right, exists_ok_iff, gives_expect, Consumes]
  constructor
  · rintro ⟨t, mid, ⟨rfl, hk⟩, rfl, rfl⟩
    exact ⟨t, ⟨_, rfl, hk, rfl⟩, rfl⟩
  · rintro ⟨t, ⟨_, rfl, hk, rfl⟩, rfl⟩
    exact ⟨t, _, ⟨rfl, hk⟩, rfl, rfl⟩

theorem gives_type {v : Token} :
    Gives (sc.type ts) v rest ↔ ∃ t : TypeMark Token, Consumes t.leaves ts rest ∧ t.name = v := by
  simp only [type, gives_bind, gives_pure, exists_and_right, exists_ok_iff, gives_expect,
    TypeMark.leaves, Consumes]
  constructor
  · rintro ⟨c, mid, ⟨rfl, hc⟩, t, _, ⟨rfl, ht⟩, rfl, rfl⟩
    exact ⟨⟨c, t⟩, ⟨_, rfl, hc, _, rfl, ht, rfl⟩, rfl⟩
  · rintro ⟨⟨c, t⟩, ⟨_, rfl, hc, _, rfl, ht, rfl⟩, rfl⟩
    exact ⟨c, _, ⟨rfl, hc⟩, t, _, ⟨rfl, ht⟩, rfl, rfl⟩

theorem reads_typedName (sc : Scope) :
    Reads sc.typedName Param.leaves Param.tree (fun _ => True) [.colon] where
  sound := by
    intro ts v rest h
    simp only [typedName, gives_bind, gives_ite, gives_pure, exists_and_right, exists_ok_iff,
      gives_name, gives_type] at h
    obtain ⟨_, mid, ⟨n, hn, rfl⟩, ⟨-, _, _, ⟨t, ht, rfl⟩, rfl, rfl⟩ | ⟨-, rfl, rfl⟩⟩ := h
    · exact ⟨⟨n, some t⟩, consumes_append.2 ⟨mid, hn, ht⟩, trivial, rfl⟩
    · exact ⟨⟨n, none⟩, hn, trivial, rfl⟩
  complete := by
    rintro ts ⟨n, t⟩ rest h - he
    obtain ⟨mid, rfl, hk, h⟩ := h
    simp only [typedName, gives_bind, gives_ite, gives_pure, exists_and_right, exists_ok_iff,
      gives_name, gives_type]
    refine ⟨_, mid, ⟨n, ⟨mid, rfl, hk, rfl⟩, rfl⟩, ?_⟩
    cases t with
    | none =>
      obtain rfl : mid = rest := h
      exact .inr ⟨startsWithKind_eq_false he List.mem_cons_self, rfl, rfl⟩
    | some t =>
      refine .inl ⟨?_, _, rest, ⟨t, h, rfl⟩, rfl, rfl⟩
      obtain ⟨_, rfl, hc, -⟩ := h
      exact decide_eq_true hc

/-! ### Lists -/

theorem gives_commaList {α : Type} {p : Step α} {vs : List α} :
    Gives (commaList p ts) vs rest ↔ ∃ v mid, Gives (p ts) v mid ∧
      (Ends [.comma] mid ∧ [v] = vs ∧ mid = rest ∨
        ∃ c mid' vs', mid = c :: mid' ∧ c.kind = .comma ∧ Gives (commaList p mid') vs' rest ∧
          v :: vs' = vs) := by
  rw [commaList]
  cases hp : p ts with
  | error f => simp
  | ok r =>
    obtain ⟨v, mid, h⟩ := r
    cases mid with
    | nil => simp [Ends]
    | cons c mid =>
      by_cases hc : c.kind = .comma
      · cases hl : commaList p mid with
        | error f => simp [hc, hl]
        | ok r =>
          obtain ⟨vs', mid', h'⟩ := r
          simp [hc, hl, and_assoc, and_comm]
      · simp [hc]

theorem reads_commaList {α β : Type} {p : Step α} {leaves : β → List (Kind × Token)} {value : β → α}
    {good : β → Prop} {ks : List Kind} (h : Reads p leaves value good ks) (hk : .comma ∉ ks) :
    Reads (commaList p) (CommaList.leaves leaves) (fun l => l.toList.map value)
      (fun l => ∀ b ∈ l.toList, good b) (.comma :: ks) where
  sound := by
    intro ts vs rest hg
    induction hn : ts.length using Nat.strongRecOn generalizing ts vs with
    | ind n ih =>
      obtain ⟨v, mid, hv, hrest⟩ := gives_commaList.1 hg
      obtain ⟨b, hb, hgood, rfl⟩ := h.sound hv
      rcases hrest with ⟨-, rfl, rfl⟩ | ⟨c, mid', vs', rfl, hc, hl, rfl⟩
      · exact ⟨.one b, hb, by simpa [CommaList.toList] using hgood, rfl⟩
      · have hlt := hv.shorter
        rw [List.length_cons] at hlt
        obtain ⟨l, hls, hgoods, rfl⟩ := ih mid'.length (by omega) hl rfl
        refine ⟨.more b c l, consumes_append.2 ⟨_, hb, mid', rfl, hc, hls⟩, ?_, rfl⟩
        simpa [CommaList.toList] using ⟨hgood, hgoods⟩
  complete := by
    intro ts l rest hc hgood he
    induction l generalizing ts with
    | one b =>
      have hb := h.complete hc (hgood b List.mem_cons_self) (he.mono (List.subset_cons_self _ _))
      exact gives_commaList.2 ⟨value b, rest, hb, .inl ⟨he.mono (by simp), rfl, rfl⟩⟩
    | more b c l ih =>
      obtain ⟨_, hb, mid, rfl, hck, hl⟩ := consumes_append.1 hc
      have hb := h.complete hb (hgood b List.mem_cons_self) (ends_cons.2 (hck ▸ hk))
      have hl := ih hl fun b hb => hgood b (List.mem_cons_of_mem _ hb)
      exact gives_commaList.2 ⟨value b, _, hb, .inr ⟨c, mid, _, rfl, hck, hl, rfl⟩⟩

theorem gives_parameters {v : List Identifier} :
    Gives (sc.parameters ts) v rest ↔ ∃ ps : Params Token, Consumes ps.leaves ts rest ∧
      ps.trees = v := by
  have list := reads_commaList (reads_typedName sc) (by decide)
  simp only [parameters, gives_bind, gives_ite, gives_pure, exists_and_right, exists_ok_iff,
    gives_expect]
  constructor
  · rintro ⟨o, mid, ⟨rfl, ho⟩, ⟨-, c, _, ⟨rfl, hc⟩, rfl, rfl⟩ | ⟨-, _, _, hl, c, _, ⟨rfl, hc⟩,
      rfl, rfl⟩⟩
    · exact ⟨⟨o, none, c⟩, ⟨_, rfl, ho, _, rfl, hc, rfl⟩, rfl⟩
    · obtain ⟨l, hls, -, rfl⟩ := list.sound hl
      exact ⟨⟨o, some l, c⟩, ⟨_, rfl, ho, consumes_append.2 ⟨_, hls, _, rfl, hc, rfl⟩⟩, rfl⟩
  · rintro ⟨⟨o, l, c⟩, ⟨mid, rfl, ho, h⟩, rfl⟩
    refine ⟨o, mid, ⟨rfl, ho⟩, ?_⟩
    obtain ⟨_, hl, _, rfl, hc, rfl⟩ := consumes_append.1 h
    cases l with
    | none =>
      obtain rfl : mid = _ := hl
      exact .inl ⟨decide_eq_true hc, c, _, ⟨rfl, hc⟩, rfl, rfl⟩
    | some l =>
      have hg := list.complete hl (fun _ _ => trivial) (ends_cons.2 (by rw [hc]; decide))
      refine .inr ⟨?_, _, _, hg, c, _, ⟨rfl, hc⟩, rfl, rfl⟩
      -- the first parameter is a name
      cases l <;> obtain ⟨_, rfl, hn, -⟩ := hl <;> simp [startsWithKind, hn]

/-! ### Expressions -/

/-- The leaves of arguments between parentheses. -/
def argumentsLeaves (a : Token × CommaList Token (Expr Token) × Token) : List (Kind × Token) :=
  (.openParen, a.1) :: (Expr.leavesAll a.2.1 ++ [(.closeParen, a.2.2)])

theorem reads_arguments {p : Step Expression} {n : Nat}
    (h : Reads p Expr.leaves Expr.tree (fun e => e.nesting ≤ n) [.openParen]) :
    Reads (sc.arguments p) argumentsLeaves (fun a => (Expr.treeAll a.2.1, a.2.2))
      (fun a => Expr.nestingAll a.2.1 + 1 ≤ n + 1) [] where
  sound := by
    intro ts v rest hg
    simp only [arguments, gives_bind, gives_pure, exists_and_right, exists_ok_iff,
      gives_expect] at hg
    obtain ⟨o, _, ⟨rfl, ho⟩, _, _, hl, c, _, ⟨rfl, hc⟩, rfl, rfl⟩ := hg
    obtain ⟨as, has, hgood, rfl⟩ := (reads_commaList h (by decide)).sound hl
    rw [← Expr.leavesAll_eq] at has
    exact ⟨(o, as, c), ⟨_, rfl, ho, consumes_append.2 ⟨_, has, _, rfl, hc, rfl⟩⟩,
      Nat.succ_le_succ (Expr.nestingAll_le_iff.2 hgood), by rw [Expr.treeAll_eq]⟩
  complete := by
    rintro ts ⟨o, as, c⟩ rest ⟨mid, rfl, ho, h'⟩ hgood -
    obtain ⟨_, has, _, rfl, hc, rfl⟩ := consumes_append.1 h'
    rw [Expr.leavesAll_eq] at has
    have hl := (reads_commaList h (by decide)).complete has
      (Expr.nestingAll_le_iff.1 (Nat.le_of_succ_le_succ hgood)) (ends_cons.2 (by rw [hc]; decide))
    rw [← Expr.treeAll_eq] at hl
    simp only [arguments, gives_bind, gives_pure, exists_and_right, exists_ok_iff, gives_expect]
    exact ⟨o, _, ⟨rfl, ho⟩, _, _, hl, c, _, ⟨rfl, hc⟩, rfl, rfl⟩

theorem reads_expressionWith {p : Step (List Expression × Token)} {n : Nat}
    (h : Reads p argumentsLeaves (fun a => (Expr.treeAll a.2.1, a.2.2))
      (fun a => Expr.nestingAll a.2.1 + 1 ≤ n) []) :
    Reads (sc.expressionWith p) Expr.leaves Expr.tree (fun e => e.nesting ≤ n) [.openParen] where
  sound := by
    intro ts v rest hg
    cases ts with
    | nil => exact absurd hg not_gives_error
    | cons t ts =>
      simp only [expressionWith] at hg
      split at hg
      · next hk =>
        simp only [gives_ite, gives_bind, gives_pure, exists_and_right, exists_ok_iff] at hg
        rcases hg with ⟨-, _, mid, hp, rfl, rfl⟩ | ⟨-, rfl, rfl⟩
        · obtain ⟨⟨o, as, c⟩, hc, hgood, rfl⟩ := h.sound hp
          exact ⟨.call t o as c, ⟨ts, rfl, hk, hc⟩, hgood, rfl⟩
        · exact ⟨.name t, ⟨_, rfl, hk, rfl⟩, Nat.zero_le n, rfl⟩
      · next hk =>
        obtain ⟨rfl, rfl⟩ := gives_ok.1 hg
        exact ⟨.number t, ⟨_, rfl, hk, rfl⟩, Nat.zero_le n, rfl⟩
      · next hk =>
        obtain ⟨rfl, rfl⟩ := gives_ok.1 hg
        exact ⟨.string t, ⟨_, rfl, hk, rfl⟩, Nat.zero_le n, rfl⟩
      · exact absurd hg not_gives_error
  complete := by
    intro ts e rest hc hgood he
    cases e with
    | name t =>
      obtain ⟨_, rfl, hk, rfl⟩ := hc
      simp only [expressionWith, hk, gives_ite, gives_pure]
      exact .inr ⟨startsWithKind_eq_false he List.mem_cons_self, rfl, trivial⟩
    | number t =>
      obtain ⟨_, rfl, hk, rfl⟩ := hc
      simp only [expressionWith, hk]
      exact gives_ok.2 ⟨rfl, rfl⟩
    | string t =>
      obtain ⟨_, rfl, hk, rfl⟩ := hc
      simp only [expressionWith, hk]
      exact gives_ok.2 ⟨rfl, rfl⟩
    | call t o as c =>
      obtain ⟨ts, rfl, hk, hc⟩ := hc
      have hp := h.gives_iff.2 ⟨(o, as, c), hc, hgood, rfl⟩
      simp only [expressionWith, hk, gives_ite, gives_bind, gives_pure, exists_and_right,
        exists_ok_iff]
      refine .inl ⟨?_, _, rest, hp, rfl, rfl⟩
      obtain ⟨_, rfl, ho, -⟩ := hc
      exact decide_eq_true ho

/-- An expression is read with any nesting of calls up to the budget. -/
theorem reads_expression (budget : Nat) :
    Reads (sc.expression budget) Expr.leaves Expr.tree (fun e => e.nesting ≤ budget)
      [.openParen] := by
  induction budget with
  | zero =>
    refine reads_expressionWith ⟨fun hg => absurd hg not_gives_error, ?_⟩
    intro ts b rest _ hgood
    exact absurd hgood (Nat.not_succ_le_zero _)
  | succ budget ih => exact reads_expressionWith (reads_arguments ih)

/-! ### Statements up to a brace or to the end -/

section

variable {α β : Type} {p : Step α} {leaves : β → List (Kind × Token)} {value : β → α}
  {good : β → Prop}

theorem gives_untilBrace_of_brace {t : Token} (ht : t.kind = .closeBrace) {v : List α × Token} :
    Gives (sc.untilBrace p (t :: ts)) v rest ↔ ([], t) = v ∧ ts = rest := by
  rw [untilBrace, if_pos ht, gives_ok]

theorem gives_untilBrace_of_ne {t : Token} (ht : t.kind ≠ .closeBrace) {vs : List α} {c : Token} :
    Gives (sc.untilBrace p (t :: ts)) (vs, c) rest ↔ ∃ v mid vs', Gives (p (t :: ts)) v mid ∧
      Gives (sc.untilBrace p mid) (vs', c) rest ∧ v :: vs' = vs := by
  rw [untilBrace, if_neg ht]
  cases hp : p (t :: ts) with
  | error f => simp
  | ok r =>
    obtain ⟨v, mid, h⟩ := r
    cases hl : sc.untilBrace p mid with
    | error f => simp [hl, and_assoc]
    | ok r =>
      obtain ⟨⟨vs', c'⟩, mid', h'⟩ := r
      simp [hl, and_assoc, and_comm, and_left_comm]

theorem reads_untilBrace (h : Reads p leaves value good [])
    (hl : ∀ b, ∃ k t ls, leaves b = (k, t) :: ls ∧ k ≠ .closeBrace) :
    Reads (sc.untilBrace p) (fun b : List β × Token => b.1.flatMap leaves ++ [(.closeBrace, b.2)])
      (fun b => (b.1.map value, b.2)) (fun b => ∀ x ∈ b.1, good x) [] where
  sound := by
    rintro ts ⟨vs, c⟩ rest hg
    induction hn : ts.length using Nat.strongRecOn generalizing ts vs with
    | ind n ih =>
      cases ts with
      | nil =>
        rw [untilBrace] at hg
        exact absurd hg not_gives_error
      | cons t ts =>
        by_cases ht : t.kind = .closeBrace
        · obtain ⟨h', rfl⟩ := (gives_untilBrace_of_brace ht).1 hg
          obtain ⟨rfl, rfl⟩ := Prod.mk.inj h'
          exact ⟨([], t), ⟨ts, rfl, ht, rfl⟩, by simp, rfl⟩
        · obtain ⟨v, mid, vs', hp, hg', rfl⟩ := (gives_untilBrace_of_ne ht).1 hg
          obtain ⟨b, hb, hgood, rfl⟩ := h.sound hp
          obtain ⟨⟨bs, c'⟩, hbs, hgoods, e⟩ := ih mid.length (hn ▸ hp.shorter) vs' hg' rfl
          obtain ⟨rfl, rfl⟩ := Prod.mk.inj e
          refine ⟨(b :: bs, c'), ?_, by simpa using ⟨hgood, hgoods⟩, rfl⟩
          rw [List.flatMap_cons, List.append_assoc]
          exact consumes_append.2 ⟨mid, hb, hbs⟩
  complete := by
    rintro ts ⟨bs, c⟩ rest hc hgood -
    induction bs generalizing ts with
    | nil =>
      obtain ⟨_, rfl, hc, rfl⟩ := hc
      exact (gives_untilBrace_of_brace hc).2 ⟨rfl, rfl⟩
    | cons b bs ih =>
      rw [List.flatMap_cons, List.append_assoc] at hc
      obtain ⟨mid, hb, hbs⟩ := consumes_append.1 hc
      have hp := h.gives_iff.2 ⟨b, hb, hgood b List.mem_cons_self, rfl⟩
      obtain ⟨k, t, ls, e, hk⟩ := hl b
      rw [e] at hb
      obtain ⟨_, rfl, rfl, -⟩ := hb
      exact (gives_untilBrace_of_ne hk).2
        ⟨_, mid, _, hp, ih hbs fun x hx => hgood x (List.mem_cons_of_mem _ hx), rfl⟩

theorem untilEnd_cons_eq_ok_iff {t : Token} {vs : List α} :
    sc.untilEnd p (t :: ts) = .ok vs ↔
      ∃ v mid vs', Gives (p (t :: ts)) v mid ∧ sc.untilEnd p mid = .ok vs' ∧ v :: vs' = vs := by
  rw [untilEnd]
  cases hp : p (t :: ts) with
  | error f => simp
  | ok r =>
    obtain ⟨v, mid, h⟩ := r
    cases hl : sc.untilEnd p mid <;> simp [hl]

theorem untilEnd_nil_eq_ok_iff {vs : List α} :
    sc.untilEnd p [] = .ok vs ↔ (∃ o, sc.ending = .complete o) ∧ [] = vs := by
  rw [untilEnd]
  cases sc.ending <;> simp

theorem untilEnd_eq_ok_iff (h : Reads p leaves value good []) (hl : ∀ b, leaves b ≠ [])
    {vs : List α} : sc.untilEnd p ts = .ok vs ↔ (∃ o, sc.ending = .complete o) ∧
      ∃ bs : List β, Consumes (bs.flatMap leaves) ts [] ∧ (∀ b ∈ bs, good b) ∧
        bs.map value = vs := by
  induction hn : ts.length using Nat.strongRecOn generalizing ts vs with
  | ind n ih =>
    cases ts with
    | nil =>
      rw [untilEnd_nil_eq_ok_iff]
      refine and_congr_right fun _ => ⟨?_, ?_⟩
      · rintro rfl
        exact ⟨[], rfl, by simp, rfl⟩
      · rintro ⟨bs, hc, -, rfl⟩
        cases bs with
        | nil => rfl
        | cons b bs =>
          have hnil := List.append_eq_nil_iff.1 (consumes_nil_iff.1 hc).symm
          exact absurd hnil.1 (hl b)
    | cons t ts =>
      rw [untilEnd_cons_eq_ok_iff]
      constructor
      · rintro ⟨v, mid, vs', hp, he, rfl⟩
        obtain ⟨b, hb, hgood, rfl⟩ := h.sound hp
        obtain ⟨hend, bs, hbs, hgoods, rfl⟩ := (ih mid.length (hn ▸ hp.shorter) rfl).1 he
        exact ⟨hend, b :: bs, consumes_append.2 ⟨mid, hb, hbs⟩, by simpa using ⟨hgood, hgoods⟩, rfl⟩
      · rintro ⟨hend, bs, hc, hgood, rfl⟩
        cases bs with
        | nil => cases hc
        | cons b bs =>
          obtain ⟨mid, hb, hbs⟩ := consumes_append.1 hc
          have hp := h.gives_iff.2 ⟨b, hb, hgood b List.mem_cons_self, rfl⟩
          have hgoods := fun x hx => hgood x (List.mem_cons_of_mem _ hx)
          exact ⟨_, mid, _, hp,
            (ih mid.length (hn ▸ hp.shorter) rfl).2 ⟨hend, bs, hbs, hgoods, rfl⟩, rfl⟩

end

/-! ### Statements -/

/-- The first leaf of a statement tells that one begins. -/
theorem exists_leaves_cons (s : Stmt Token) :
    ∃ k t ls, s.leaves = (k, t) :: ls ∧
      k ∈ [Kind.declare, .function, .const, .return, .identifier, .number, .string] := by
  cases s with
  | declaration => exact ⟨_, _, _, rfl, by decide⟩
  | definition => exact ⟨_, _, _, rfl, by decide⟩
  | constant => exact ⟨_, _, _, rfl, by decide⟩
  | «return» => exact ⟨_, _, _, rfl, by decide⟩
  | expression e c => cases e <;> exact ⟨_, _, _, rfl, by decide⟩

/-- The leaves of a block. -/
def blockLeaves (b : Token × List (Stmt Token) × Token) : List (Kind × Token) :=
  (.openBrace, b.1) :: (Stmt.leavesAll b.2.1 ++ [(.closeBrace, b.2.2)])

/-- The span of a block and the trees of its statements. -/
def blockTree (b : Token × List (Stmt Token) × Token) : Span × List Statement :=
  (⟨b.1.start, b.2.2.stop⟩, Stmt.treeAll b.2.1)

theorem reads_block {p : Step Statement} {n : Nat}
    (h : Reads p Stmt.leaves Stmt.tree (fun s => s.nesting ≤ n) []) :
    Reads (sc.block p) blockLeaves blockTree (fun b => Stmt.nestingAll b.2.1 + 1 ≤ n + 1) [] := by
  have brace : Reads (sc.untilBrace p) _ _ _ _ := reads_untilBrace h fun s => by
    obtain ⟨k, t, ls, e, hk⟩ := exists_leaves_cons s
    exact ⟨k, t, ls, e, by rintro rfl; simp at hk⟩
  constructor
  · intro ts v rest hg
    simp only [block, gives_bind, gives_pure, exists_and_right, exists_ok_iff, gives_expect] at hg
    obtain ⟨o, _, ⟨rfl, ho⟩, _, _, hb, rfl, rfl⟩ := hg
    obtain ⟨⟨body, c⟩, hbody, hgood, rfl⟩ := brace.sound hb
    rw [← Stmt.leavesAll_eq] at hbody
    exact ⟨(o, body, c), ⟨_, rfl, ho, hbody⟩, Nat.succ_le_succ (Stmt.nestingAll_le_iff.2 hgood),
      by rw [blockTree, Stmt.treeAll_eq]⟩
  · rintro ts ⟨o, body, c⟩ rest ⟨mid, rfl, ho, hb⟩ hgood -
    rw [Stmt.leavesAll_eq] at hb
    have hb := brace.gives_iff.2
      ⟨(body, c), hb, Stmt.nestingAll_le_iff.1 (Nat.le_of_succ_le_succ hgood), rfl⟩
    simp only [block, gives_bind, gives_pure, exists_and_right, exists_ok_iff, gives_expect]
    exact ⟨o, mid, ⟨rfl, ho⟩, _, rest, hb, by rw [blockTree, Stmt.treeAll_eq], rfl⟩

theorem gives_declaration (sc : Scope) {v : Statement} :
    Gives (sc.terminated sc.declaration ts) v rest ↔ ∃ d f n ps t c,
      Consumes (Stmt.declaration d f n ps t c).leaves ts rest ∧
        (Stmt.declaration d f n ps t c).tree = v := by
  simp only [terminated, declaration, gives_bind, gives_pure, exists_and_right, exists_ok_iff,
    gives_expect, gives_name, gives_parameters, gives_type, Stmt.leaves, consumes_append, Consumes]
  constructor
  · rintro ⟨_, _, ⟨d, _, ⟨rfl, hd⟩, f, _, ⟨rfl, hf⟩, _, _, ⟨n, ⟨_, rfl, hn, rfl⟩, rfl⟩, _, mid,
      ⟨ps, hps, rfl⟩, _, _, ⟨t, ht, rfl⟩, rfl, rfl⟩, c, _, ⟨rfl, hc⟩, rfl, rfl⟩
    exact ⟨d, f, n, ps, t, c,
      ⟨_, rfl, hd, _, rfl, hf, _, rfl, hn, _, ⟨mid, hps, ht⟩, _, rfl, hc, rfl⟩, rfl⟩
  · rintro ⟨d, f, n, ps, t, c,
      ⟨_, rfl, hd, _, rfl, hf, _, rfl, hn, _, ⟨mid, hps, ht⟩, _, rfl, hc, rfl⟩, rfl⟩
    exact ⟨_, _, ⟨d, _, ⟨rfl, hd⟩, f, _, ⟨rfl, hf⟩, _, _, ⟨n, ⟨_, rfl, hn, rfl⟩, rfl⟩, _, mid,
      ⟨ps, hps, rfl⟩, _, _, ⟨t, ht, rfl⟩, rfl, rfl⟩, c, _, ⟨rfl, hc⟩, rfl, rfl⟩

theorem gives_definition (sc : Scope) {body : Step (Span × List Statement)} {n : Nat}
    (h : Reads body blockLeaves blockTree (fun b => Stmt.nestingAll b.2.1 + 1 ≤ n) [])
    {v : Statement} : Gives (sc.definition body ts) v rest ↔ ∃ f m ps t o b c,
      Consumes (Stmt.definition f m ps t o b c).leaves ts rest ∧
        (Stmt.definition f m ps t o b c).nesting ≤ n ∧
          (Stmt.definition f m ps t o b c).tree = v := by
  simp only [definition, gives_bind, gives_ite, gives_pure, exists_and_right, exists_ok_iff,
    gives_expect, gives_name, gives_parameters, gives_type, h.gives_iff, Stmt.leaves,
    consumes_append, Consumes]
  constructor
  · rintro ⟨f, _, ⟨rfl, hf⟩, _, _, ⟨m, ⟨_, rfl, hm, rfl⟩, rfl⟩, _, mid, ⟨ps, hps, rfl⟩,
      ⟨-, _, mid', ⟨t, ht, rfl⟩, _, _, ⟨⟨o, b, c⟩, hb, hgood, rfl⟩, rfl, rfl⟩ |
        ⟨-, _, _, ⟨⟨o, b, c⟩, hb, hgood, rfl⟩, rfl, rfl⟩⟩
    · obtain ⟨_, rfl, ho, hb⟩ := hb
      exact ⟨f, m, ps, some t, o, b, c,
        ⟨_, rfl, hf, _, rfl, hm, _, ⟨mid, hps, ht⟩, _, rfl, ho, consumes_append.1 hb⟩, hgood, rfl⟩
    · obtain ⟨_, rfl, ho, hb⟩ := hb
      exact ⟨f, m, ps, none, o, b, c,
        ⟨_, rfl, hf, _, rfl, hm, _, ⟨_, hps, rfl⟩, _, rfl, ho, consumes_append.1 hb⟩, hgood, rfl⟩
  · rintro ⟨f, m, ps, t, o, b, c,
      ⟨_, rfl, hf, _, rfl, hm, _, ⟨mid, hps, ht⟩, _, rfl, ho, hb⟩, hgood, rfl⟩
    have hb : ∃ x, Consumes (blockLeaves x) _ rest ∧ Stmt.nestingAll x.2.1 + 1 ≤ n ∧
        blockTree x = blockTree (o, b, c) :=
      ⟨(o, b, c), ⟨_, rfl, ho, consumes_append.2 hb⟩, hgood, rfl⟩
    refine ⟨f, _, ⟨rfl, hf⟩, _, _, ⟨m, ⟨_, rfl, hm, rfl⟩, rfl⟩, _, mid, ⟨ps, hps, rfl⟩, ?_⟩
    cases t with
    | none =>
      obtain rfl : mid = _ := ht
      exact .inr ⟨by simp [startsWithKind, ho], blockTree (o, b, c), _, hb, rfl, rfl⟩
    | some t =>
      refine .inl ⟨?_, _, _, ⟨t, ht, rfl⟩, blockTree (o, b, c), _, hb, rfl, rfl⟩
      obtain ⟨_, rfl, hc, -⟩ := ht
      exact decide_eq_true hc

theorem gives_constant (sc : Scope) {expr : Step Expression} {n : Nat}
    (h : Reads expr Expr.leaves Expr.tree (fun e => e.nesting ≤ n) [.openParen]) {v : Statement} :
    Gives (sc.terminated (sc.constant expr) ts) v rest ↔ ∃ k id a e c,
      Consumes (Stmt.constant k id a e c).leaves ts rest ∧
        (Stmt.constant k id a e c).nesting ≤ n ∧ (Stmt.constant k id a e c).tree = v := by
  simp only [terminated, constant, gives_bind, gives_pure, exists_and_right, exists_ok_iff,
    gives_expect, Stmt.leaves, consumes_append, Consumes]
  constructor
  · rintro ⟨_, _, ⟨k, _, ⟨rfl, hk⟩, _, _, hid, a, _, ⟨rfl, ha⟩, _, _, he, rfl, rfl⟩, c, _,
      ⟨rfl, hc⟩, rfl, rfl⟩
    obtain ⟨id, hid', -, rfl⟩ := (reads_typedName sc).sound hid
    obtain ⟨e, he', hgood, rfl⟩ := h.sound he
    exact ⟨k, id, a, e, c, ⟨_, rfl, hk, _, hid', _, rfl, ha, _, he', _, rfl, hc, rfl⟩, hgood, rfl⟩
  · rintro ⟨k, id, a, e, c, ⟨_, rfl, hk, _, hid, _, rfl, ha, _, he, _, rfl, hc, rfl⟩, hgood, rfl⟩
    have hid := (reads_typedName sc).complete hid trivial (ends_cons.2 (by rw [ha]; decide))
    have he := h.complete he hgood (ends_cons.2 (by rw [hc]; decide))
    exact ⟨_, _, ⟨k, _, ⟨rfl, hk⟩, _, _, hid, a, _, ⟨rfl, ha⟩, _, _, he, rfl, rfl⟩, c, _, ⟨rfl, hc⟩,
      rfl, rfl⟩

theorem gives_expressionStatement (sc : Scope) {expr : Step Expression} {n : Nat}
    (h : Reads expr Expr.leaves Expr.tree (fun e => e.nesting ≤ n) [.openParen]) {v : Statement} :
    Gives (sc.terminated (expressionStatement expr) ts) v rest ↔ ∃ e c,
      Consumes (Stmt.expression e c).leaves ts rest ∧
        (Stmt.expression e c).nesting ≤ n ∧ (Stmt.expression e c).tree = v := by
  simp only [terminated, expressionStatement, gives_bind, gives_pure, exists_and_right,
    exists_ok_iff, gives_expect, Stmt.leaves, consumes_append, Consumes]
  constructor
  · rintro ⟨_, _, ⟨_, _, he, rfl, rfl⟩, c, _, ⟨rfl, hc⟩, rfl, rfl⟩
    obtain ⟨e, he', hgood, rfl⟩ := h.sound he
    exact ⟨e, c, ⟨_, he', _, rfl, hc, rfl⟩, hgood, rfl⟩
  · rintro ⟨e, c, ⟨_, he, _, rfl, hc, rfl⟩, hgood, rfl⟩
    have he := h.complete he hgood (ends_cons.2 (by rw [hc]; decide))
    exact ⟨_, _, ⟨_, _, he, rfl, rfl⟩, c, _, ⟨rfl, hc⟩, rfl, rfl⟩

theorem gives_return (sc : Scope) {expr : Step Expression} {n : Nat}
    (h : Reads expr Expr.leaves Expr.tree (fun e => e.nesting ≤ n) [.openParen]) {v : Statement} :
    Gives (sc.terminated (sc.returning expr) ts) v rest ↔ ∃ k e c,
      Consumes (Stmt.return k e c).leaves ts rest ∧
        (Stmt.return k e c).nesting ≤ n ∧ (Stmt.return k e c).tree = v := by
  simp only [terminated, returning, gives_bind, gives_ite, gives_pure, exists_and_right,
    exists_ok_iff, gives_expect, Stmt.leaves, consumes_append, Consumes]
  constructor
  · rintro ⟨_, _, ⟨k, _, ⟨rfl, hk⟩, ⟨-, rfl, rfl⟩ | ⟨-, _, _, he, rfl, rfl⟩⟩, c, _, ⟨rfl, hc⟩,
      rfl, rfl⟩
    · exact ⟨k, none, c, ⟨_, rfl, hk, _, rfl, _, rfl, hc, rfl⟩, Nat.zero_le n, rfl⟩
    · obtain ⟨e, he', hgood, rfl⟩ := h.sound he
      exact ⟨k, some e, c, ⟨_, rfl, hk, _, he', _, rfl, hc, rfl⟩, hgood, rfl⟩
  · rintro ⟨k, e, c, ⟨mid, rfl, hk, _, he, _, rfl, hc, rfl⟩, hgood, rfl⟩
    refine ⟨_, _, ⟨k, mid, ⟨rfl, hk⟩, ?_⟩, c, _, ⟨rfl, hc⟩, rfl, rfl⟩
    cases e with
    | none =>
      obtain rfl : mid = _ := he
      exact .inl ⟨by simp [startsWithKind, hc], rfl, rfl⟩
    | some e =>
      have hg := h.complete he hgood (ends_cons.2 (by rw [hc]; decide))
      refine .inr ⟨?_, _, _, hg, rfl, rfl⟩
      -- an expression begins with no semicolon
      cases e <;> obtain ⟨_, rfl, hn, -⟩ := he <;> simp [startsWithKind, hn]

/-- Statements are read if the expressions and the blocks in them are. The first token decides which
statement it is. -/
theorem reads_statementWith {expr : Step Expression} {body : Step (Span × List Statement)} {n : Nat}
    (he : Reads expr Expr.leaves Expr.tree (fun e => e.nesting ≤ n) [.openParen])
    (hb : Reads body blockLeaves blockTree (fun b => Stmt.nestingAll b.2.1 + 1 ≤ n) []) :
    Reads (sc.statementWith expr body) Stmt.leaves Stmt.tree (fun s => s.nesting ≤ n) [] where
  sound := by
    intro ts v rest hg
    cases ts with
    | nil => exact absurd hg not_gives_error
    | cons t ts =>
      have expression (hg : Gives (sc.terminated (expressionStatement expr) (t :: ts)) v rest) :
          ∃ s : Stmt Token, Consumes s.leaves (t :: ts) rest ∧ s.nesting ≤ n ∧ s.tree = v := by
        obtain ⟨e, c, h, hgood, rfl⟩ := (gives_expressionStatement sc he).1 hg
        exact ⟨_, h, hgood, rfl⟩
      simp only [statementWith] at hg
      split at hg
      · obtain ⟨f, m, ps, ty, o, b, c, h, hgood, rfl⟩ := (gives_definition sc hb).1 hg
        exact ⟨_, h, hgood, rfl⟩
      · obtain ⟨d, f, m, ps, ty, c, h, rfl⟩ := (gives_declaration sc).1 hg
        exact ⟨_, h, Nat.zero_le n, rfl⟩
      · obtain ⟨k, id, a, e, c, h, hgood, rfl⟩ := (gives_constant sc he).1 hg
        exact ⟨_, h, hgood, rfl⟩
      · obtain ⟨k, e, c, h, hgood, rfl⟩ := (gives_return sc he).1 hg
        exact ⟨_, h, hgood, rfl⟩
      · exact expression hg
      · exact expression hg
      · exact expression hg
      · exact absurd hg not_gives_error
  complete := by
    intro ts s rest hc hgood _
    cases s with
    | declaration d f m ps ty c =>
      have hg := (gives_declaration sc).2 ⟨d, f, m, ps, ty, c, hc, rfl⟩
      obtain ⟨_, rfl, hk, -⟩ := hc
      simpa only [statementWith, hk] using hg
    | definition f m ps ty o b c =>
      have hg := (gives_definition sc hb).2 ⟨f, m, ps, ty, o, b, c, hc, hgood, rfl⟩
      obtain ⟨_, rfl, hk, -⟩ := hc
      simpa only [statementWith, hk] using hg
    | constant k id a e c =>
      have hg := (gives_constant sc he).2 ⟨k, id, a, e, c, hc, hgood, rfl⟩
      obtain ⟨_, rfl, hk, -⟩ := hc
      simpa only [statementWith, hk] using hg
    | «return» k e c =>
      have hg := (gives_return sc he).2 ⟨k, e, c, hc, hgood, rfl⟩
      obtain ⟨_, rfl, hk, -⟩ := hc
      simpa only [statementWith, hk] using hg
    | expression e c =>
      have hg := (gives_expressionStatement sc he).2 ⟨e, c, hc, hgood, rfl⟩
      cases e <;> obtain ⟨_, rfl, hk, -⟩ := hc <;> simpa only [statementWith, hk] using hg

/-- A statement is read with any nesting of blocks and calls up to the budget. -/
theorem reads_statement (budget : Nat) :
    Reads (sc.statement budget) Stmt.leaves Stmt.tree (fun s => s.nesting ≤ budget) [] := by
  induction budget with
  | zero =>
    refine reads_statementWith (reads_expression 0) ⟨fun hg => absurd hg not_gives_error, ?_⟩
    intro ts b rest _ hgood
    exact absurd hgood (Nat.not_succ_le_zero _)
  | succ budget ih => exact reads_statementWith (reads_expression (budget + 1)) (reads_block ih)

/-- The statements up to the end of the text are those of a derivation within the budget. -/
theorem untilEnd_statement_eq_ok_iff {budget : Nat} {vs : List Statement} :
    sc.untilEnd (sc.statement budget) ts = .ok vs ↔ (∃ o, sc.ending = .complete o) ∧
      ∃ d, Stmt.leavesAll d = ts.map (fun t => (t.kind, t)) ∧ Stmt.nestingAll d ≤ budget ∧
        Stmt.treeAll d = vs := by
  have hl (s : Stmt Token) : s.leaves ≠ [] := by
    obtain ⟨k, t, ls, e, -⟩ := exists_leaves_cons s
    rw [e]
    exact List.cons_ne_nil _ _
  simp only [untilEnd_eq_ok_iff (reads_statement budget) hl, consumes_nil_iff, Stmt.leavesAll_eq,
    Stmt.nestingAll_le_iff, Stmt.treeAll_eq, eq_comm]

end Scope

/-! ### Programs -/

theorem parse_eq_ok_iff {maxDepth : Int} {src : Text} {p : Program} :
    parse maxDepth src = .ok p ↔ (∃ o, (tokenize src).ending = .complete o) ∧
      ∃ d, Stmt.leavesAll d = (tokenize src).tokens.map (fun t => (t.kind, t)) ∧
        Stmt.nestingAll d ≤ depthLimit maxDepth ∧ p = ⟨⟨0, src.length⟩, Stmt.treeAll d⟩ := by
  have h : parse maxDepth src = .ok p ↔
    ∃ vs, Scope.untilEnd ⟨(tokenize src).ending, depthLimit maxDepth⟩
      (Scope.statement ⟨(tokenize src).ending, depthLimit maxDepth⟩ (depthLimit maxDepth))
      (tokenize src).tokens = .ok vs ∧ p = ⟨⟨0, src.length⟩, vs⟩ := by
    rw [parse]
    generalize Scope.untilEnd _ _ _ = x
    cases x with
    | error f => simp [bind, Except.bind]
    | ok vs => simp [bind, Except.bind, pure, Except.pure, eq_comm]
  rw [h]
  simp only [Scope.untilEnd_statement_eq_ok_iff]
  constructor
  · rintro ⟨_, ⟨ho, d, hd, hn, rfl⟩, rfl⟩
    exact ⟨ho, d, hd, hn, rfl⟩
  · rintro ⟨ho, d, hd, hn, rfl⟩
    exact ⟨_, ⟨ho, d, hd, hn, rfl⟩, rfl⟩

/-- Tokens have one tree at most: with a limit that is high enough the parser gives the trees of all
their derivations. -/
theorem treeAll_eq_of_leavesAll {ts : List Token} {d d' : List (Stmt Token)}
    (hd : Stmt.leavesAll d = ts.map fun t => (t.kind, t))
    (hd' : Stmt.leavesAll d' = ts.map fun t => (t.kind, t)) : Stmt.treeAll d = Stmt.treeAll d' := by
  let budget := max (Stmt.nestingAll d) (Stmt.nestingAll d')
  have read {d : List (Stmt Token)} (hd : Stmt.leavesAll d = ts.map fun t => (t.kind, t))
      (hn : Stmt.nestingAll d ≤ budget) : Scope.untilEnd ⟨.complete 0, 0⟩
        (Scope.statement ⟨.complete 0, 0⟩ budget) ts = .ok (Stmt.treeAll d) :=
    Scope.untilEnd_statement_eq_ok_iff.2 ⟨⟨0, rfl⟩, d, hd, hn, rfl⟩
  have htree := (read hd (Nat.le_max_left _ _)).symm.trans (read hd' (Nat.le_max_right _ _))
  exact Except.ok.inj htree

/-- **Unambiguity**: kinds of tokens have one derivation at most, since a tree fixes its
derivation. -/
theorem kindsAll_injective : Function.Injective (Stmt.kindsAll (α := Unit)) := by
  intro k k' h
  let ts : List Token := (Stmt.kindsAll k).map fun c => ⟨c, [], 0, 0⟩
  have hts : ts.map Token.kind = Stmt.kindsAll k := by
    simp [ts, List.map_map, Function.comp_def]
  obtain ⟨d, hd, rfl⟩ := Stmt.exists_shapeAll hts.symm
  obtain ⟨d', hd', rfl⟩ := Stmt.exists_shapeAll (h.symm.trans hts.symm)
  exact Stmt.shapeAll_eq_of_treeAll_eq (fun _ _ _ => Stmt.shape_eq_of_tree_eq)
    (treeAll_eq_of_leavesAll hd hd')

/-- **The parser accepts exactly its grammar**: a text has a program if and only if it is all tokens
and their kinds have a derivation with at most as many blocks and arguments open at once as the
limit allows. The program is then the tree of that derivation, with the tokens for its leaves. There
is no other derivation. -/
theorem parse_iff_derivation (maxDepth : Int) (src : Text) :
    ((∃ p, parse maxDepth src = .ok p) ↔ (∃ o, (tokenize src).ending = .complete o) ∧
      ∃ k : List (Stmt Unit), Stmt.kindsAll k = (tokenize src).tokens.map Token.kind ∧
        Stmt.nestingAll k ≤ depthLimit maxDepth) ∧
    (∀ p, parse maxDepth src = .ok p ↔ (∃ o, (tokenize src).ending = .complete o) ∧
      ∃ k : List (Stmt Unit), Stmt.kindsAll k = (tokenize src).tokens.map Token.kind ∧
        Stmt.nestingAll k ≤ depthLimit maxDepth ∧
        ∃ d : List (Stmt Token), Stmt.shapeAll d = k ∧
          Stmt.leavesAll d = (tokenize src).tokens.map (fun t => (t.kind, t)) ∧
          p = ⟨⟨0, src.length⟩, Stmt.treeAll d⟩) ∧
    Function.Injective (Stmt.kindsAll (α := Unit)) := by
  refine ⟨⟨?_, ?_⟩, fun p => ⟨?_, ?_⟩, kindsAll_injective⟩
  · rintro ⟨p, hp⟩
    obtain ⟨ho, d, hd, hn, rfl⟩ := parse_eq_ok_iff.1 hp
    exact ⟨ho, Stmt.shapeAll d, Stmt.kindsAll_shapeAll hd, by rwa [Stmt.nestingAll_shapeAll]⟩
  · rintro ⟨ho, k, hk, hn⟩
    obtain ⟨d, hd, rfl⟩ := Stmt.exists_shapeAll hk
    rw [Stmt.nestingAll_shapeAll] at hn
    exact ⟨_, parse_eq_ok_iff.2 ⟨ho, d, hd, hn, rfl⟩⟩
  · intro hp
    obtain ⟨ho, d, hd, hn, rfl⟩ := parse_eq_ok_iff.1 hp
    exact ⟨ho, Stmt.shapeAll d, Stmt.kindsAll_shapeAll hd, by rwa [Stmt.nestingAll_shapeAll], d,
      rfl, hd, rfl⟩
  · rintro ⟨ho, _, -, hn, d, rfl, hd, rfl⟩
    rw [Stmt.nestingAll_shapeAll] at hn
    exact parse_eq_ok_iff.2 ⟨ho, d, hd, hn, rfl⟩

end Scriptlet
