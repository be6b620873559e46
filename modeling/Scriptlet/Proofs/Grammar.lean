import Mathlib.Tactic.Common
import Scriptlet.Parse

/-!
# The grammar

The derivations of the grammar, as trees. Each leaf stands for a kind of token, which its place in
the derivation fixes, and carries a label: nothing at all, a text, or a token. From left to right
the leaves are what is derived; `nesting` is how many blocks and arguments are open at once. A
derivation that is labelled with tokens has a tree, and the tree fixes its shape
(`Stmt.shape_eq_of_tree_eq`).
-/

namespace Scriptlet.Grammar

/-- Phrases divided by commas, at least one. -/
inductive CommaList (α β : Type) where
  /-- The last phrase. -/
  | one (b : β)
  /-- A phrase with more after it. -/
  | more (b : β) (comma : α) (rest : CommaList α β)

/-- A colon and the name of a type. -/
structure TypeMark (α : Type) where
  /-- The colon. -/
  colon : α
  /-- The name. -/
  name : α

/-- A name with a type or without. -/
structure Param (α : Type) where
  /-- The name. -/
  name : α
  /-- The type. -/
  type : Option (TypeMark α)

/-- The parameters of a function, possibly none, between parentheses. -/
structure Params (α : Type) where
  /-- The opening parenthesis. -/
  opening : α
  /-- The parameters. -/
  list : Option (CommaList α (Param α))
  /-- The closing parenthesis. -/
  closing : α

/-- An expression. -/
inductive Expr (α : Type) where
  /-- A name. -/
  | name (n : α)
  /-- A number. -/
  | number (n : α)
  /-- A string. -/
  | string (s : α)
  /-- A call, with at least one argument. -/
  | call (callee opening : α) (args : CommaList α (Expr α)) (closing : α)

/-- A statement, with the semicolon that ends it where one does. -/
inductive Stmt (α : Type) where
  /-- A function without a body. -/
  | declaration (declare function name : α) (params : Params α) (type : TypeMark α) (semicolon : α)
  /-- A function with a body. No semicolon ends it. -/
  | definition (function name : α) (params : Params α) (type : Option (TypeMark α)) (opening : α)
      (body : List (Stmt α)) (closing : α)
  /-- A constant. -/
  | constant (const : α) (id : Param α) (assign : α) (value : Expr α) (semicolon : α)
  /-- The end of a function. -/
  | return (keyword : α) (value : Option (Expr α)) (semicolon : α)
  /-- An expression. -/
  | expression (e : Expr α) (semicolon : α)

variable {α β γ δ : Type}

/-- The phrases of a list, without the commas. -/
def CommaList.toList : CommaList α β → List β
  | one b => [b]
  | more b _ rest => b :: rest.toList

theorem CommaList.toList_ne_nil (l : CommaList α β) : l.toList ≠ [] := by
  cases l <;> exact List.cons_ne_nil _ _

/-- Expressions are built up from their arguments. -/
@[elab_as_elim]
theorem Expr.induction {motive : Expr α → Prop} (name : ∀ n, motive (.name n))
    (number : ∀ n, motive (.number n)) (string : ∀ s, motive (.string s))
    (call : ∀ f o as c, (∀ e ∈ as.toList, motive e) → motive (.call f o as c)) (e : Expr α) :
    motive e := by
  refine @Expr.rec α motive (fun as => ∀ e ∈ as.toList, motive e) name number string call ?_ ?_ e
  · intro e he e' h
    rwa [List.mem_singleton.1 h]
  · intro e _ as he has e' h
    rcases List.mem_cons.1 h with rfl | h
    · exact he
    · exact has e' h

/-- Statements are built up from those of their bodies. -/
@[elab_as_elim]
theorem Stmt.induction {motive : Stmt α → Prop}
    (declaration : ∀ d f n ps t c, motive (.declaration d f n ps t c))
    (definition : ∀ f n ps t o body c, (∀ s ∈ body, motive s) →
      motive (.definition f n ps t o body c))
    (constant : ∀ k id a e c, motive (.constant k id a e c))
    (return_ : ∀ k e c, motive (.return k e c))
    (expression : ∀ e c, motive (.expression e c)) (s : Stmt α) : motive s := by
  refine @Stmt.rec α motive
    (fun body => ∀ s ∈ body, motive s) declaration definition constant return_
    expression ?_ ?_ s
  · exact fun _ h => absurd h List.not_mem_nil
  · intro s body hs hbody s' h
    rcases List.mem_cons.1 h with rfl | h
    · exact hs
    · exact hbody s' h

/-! ### Leaves -/

/-- The leaves of a list, from those of a phrase. -/
def CommaList.leaves (f : β → List (Kind × α)) : CommaList α β → List (Kind × α)
  | one b => f b
  | more b c rest => f b ++ (.comma, c) :: rest.leaves f

/-- The leaves of a type. -/
def TypeMark.leaves (t : TypeMark α) : List (Kind × α) := [(.colon, t.colon), (.identifier, t.name)]

/-- The leaves of a type where there is one. -/
def typeLeaves (t : Option (TypeMark α)) : List (Kind × α) := t.elim [] TypeMark.leaves

/-- The leaves of a name and its type. -/
def Param.leaves (p : Param α) : List (Kind × α) := (.identifier, p.name) :: typeLeaves p.type

/-- The leaves of parameters. -/
def Params.leaves (ps : Params α) : List (Kind × α) :=
  (.openParen, ps.opening) ::
    (ps.list.elim [] (CommaList.leaves Param.leaves) ++ [(.closeParen, ps.closing)])

mutual
/-- The leaves of an expression. -/
def Expr.leaves : Expr α → List (Kind × α)
  | .name n => [(.identifier, n)]
  | .number n => [(.number, n)]
  | .string s => [(.string, s)]
  | .call f o as c =>
    (.identifier, f) :: (.openParen, o) :: (Expr.leavesAll as ++ [(.closeParen, c)])

/-- The leaves of arguments. -/
def Expr.leavesAll : CommaList α (Expr α) → List (Kind × α)
  | .one e => e.leaves
  | .more e c as => e.leaves ++ (.comma, c) :: Expr.leavesAll as
end

mutual
/-- The leaves of a statement. -/
def Stmt.leaves : Stmt α → List (Kind × α)
  | .declaration d f n ps t c =>
    (.declare, d) :: (.function, f) :: (.identifier, n) ::
      (ps.leaves ++ t.leaves ++ [(.semicolon, c)])
  | .definition f n ps t o body c =>
    (.function, f) :: (.identifier, n) :: (ps.leaves ++ typeLeaves t ++
      (.openBrace, o) :: (Stmt.leavesAll body ++ [(.closeBrace, c)]))
  | .constant k id a e c =>
    (.const, k) :: (id.leaves ++ (.assign, a) :: (e.leaves ++ [(.semicolon, c)]))
  | .return k e c => (.return, k) :: (e.elim [] Expr.leaves ++ [(.semicolon, c)])
  | .expression e c => e.leaves ++ [(.semicolon, c)]

/-- The leaves of statements. -/
def Stmt.leavesAll : List (Stmt α) → List (Kind × α)
  | [] => []
  | s :: body => s.leaves ++ Stmt.leavesAll body
end

theorem Expr.leavesAll_eq (as : CommaList α (Expr α)) :
    Expr.leavesAll as = as.leaves Expr.leaves := by
  induction as with
  | one e => rfl
  | more e c as ih => rw [Expr.leavesAll, ih]; rfl

theorem Stmt.leavesAll_eq (body : List (Stmt α)) :
    Stmt.leavesAll body = body.flatMap Stmt.leaves := by
  induction body with
  | nil => rfl
  | cons s body ih => rw [Stmt.leavesAll, ih, List.flatMap_cons]

/-- What holds for all leaves of a list holds for those of each phrase. -/
theorem CommaList.forall_mem_leaves {f : β → List (Kind × α)} {P : Kind × α → Prop}
    {l : CommaList α β} (h : ∀ x ∈ l.leaves f, P x) : ∀ b ∈ l.toList, ∀ x ∈ f b, P x := by
  induction l with
  | one b => exact List.forall_mem_singleton.2 h
  | more b c l ih =>
    obtain ⟨hb, hl⟩ := List.forall_mem_append.1 h
    exact List.forall_mem_cons.2 ⟨hb, ih (List.forall_mem_cons.1 hl).2⟩

/-- The kinds of tokens that statements are derived into. -/
def Stmt.kindsAll (body : List (Stmt α)) : List Kind := (Stmt.leavesAll body).map Prod.fst

/-! ### Nesting -/

mutual
/-- How many arguments are open at once in an expression, at most. -/
def Expr.nesting : Expr α → Nat
  | .call _ _ as _ => Expr.nestingAll as + 1
  | _ => 0

/-- The nesting of arguments. -/
def Expr.nestingAll : CommaList α (Expr α) → Nat
  | .one e => e.nesting
  | .more e _ as => max e.nesting (Expr.nestingAll as)
end

mutual
/-- How many blocks and arguments are open at once in a statement, at most. The parentheses of
parameters do not count. -/
def Stmt.nesting : Stmt α → Nat
  | .declaration _ _ _ _ _ _ => 0
  | .definition _ _ _ _ _ body _ => Stmt.nestingAll body + 1
  | .constant _ _ _ e _ => e.nesting
  | .return _ e _ => e.elim 0 Expr.nesting
  | .expression e _ => e.nesting

/-- The nesting of statements. -/
def Stmt.nestingAll : List (Stmt α) → Nat
  | [] => 0
  | s :: body => max s.nesting (Stmt.nestingAll body)
end

theorem Expr.nestingAll_le_iff {as : CommaList α (Expr α)} {n : Nat} :
    Expr.nestingAll as ≤ n ↔ ∀ e ∈ as.toList, e.nesting ≤ n := by
  induction as with
  | one e => simp [Expr.nestingAll, CommaList.toList]
  | more e c as ih => rw [Expr.nestingAll, CommaList.toList, Nat.max_le, List.forall_mem_cons, ih]

theorem Stmt.nestingAll_le_iff {body : List (Stmt α)} {n : Nat} :
    Stmt.nestingAll body ≤ n ↔ ∀ s ∈ body, s.nesting ≤ n := by
  induction body with
  | nil => simp [Stmt.nestingAll]
  | cons s body ih => rw [Stmt.nestingAll, Nat.max_le, List.forall_mem_cons, ih]

/-! ### Labels -/

/-- The list with other labels, and its phrases changed too. -/
def CommaList.map (f : α → β) (g : γ → δ) : CommaList α γ → CommaList β δ
  | one b => one (g b)
  | more b c rest => more (g b) (f c) (rest.map f g)

@[simp] theorem CommaList.toList_map (f : α → β) (g : γ → δ) (l : CommaList α γ) :
    (l.map f g).toList = l.toList.map g := by
  induction l with
  | one b => rfl
  | more b c l ih => exact congrArg (g b :: ·) ih

/-- The type with other labels. -/
def TypeMark.map (f : α → β) (t : TypeMark α) : TypeMark β := ⟨f t.colon, f t.name⟩

/-- The name and its type with other labels. -/
def Param.map (f : α → β) (p : Param α) : Param β := ⟨f p.name, p.type.map (TypeMark.map f)⟩

/-- The parameters with other labels. -/
def Params.map (f : α → β) (ps : Params α) : Params β :=
  ⟨f ps.opening, ps.list.map (CommaList.map f (Param.map f)), f ps.closing⟩

mutual
/-- The expression with other labels. -/
def Expr.map (f : α → β) : Expr α → Expr β
  | .name n => .name (f n)
  | .number n => .number (f n)
  | .string s => .string (f s)
  | .call g o as c => .call (f g) (f o) (Expr.mapAll f as) (f c)

/-- The arguments with other labels. -/
def Expr.mapAll (f : α → β) : CommaList α (Expr α) → CommaList β (Expr β)
  | .one e => .one (e.map f)
  | .more e c as => .more (e.map f) (f c) (Expr.mapAll f as)
end

mutual
/-- The statement with other labels. -/
def Stmt.map (f : α → β) : Stmt α → Stmt β
  | .declaration d g n ps t c => .declaration (f d) (f g) (f n) (ps.map f) (t.map f) (f c)
  | .definition g n ps t o body c =>
    .definition (f g) (f n) (ps.map f) (t.map (TypeMark.map f)) (f o) (Stmt.mapAll f body) (f c)
  | .constant k id a e c => .constant (f k) (id.map f) (f a) (e.map f) (f c)
  | .return k e c => .return (f k) (e.map (Expr.map f)) (f c)
  | .expression e c => .expression (e.map f) (f c)

/-- The statements with other labels. -/
def Stmt.mapAll (f : α → β) : List (Stmt α) → List (Stmt β)
  | [] => []
  | s :: body => s.map f :: Stmt.mapAll f body
end

theorem Expr.mapAll_eq (f : α → β) (as : CommaList α (Expr α)) :
    Expr.mapAll f as = as.map f (Expr.map f) := by
  induction as with
  | one e => rfl
  | more e c as ih => rw [Expr.mapAll, ih]; rfl

theorem Stmt.mapAll_eq (f : α → β) (body : List (Stmt α)) :
    Stmt.mapAll f body = body.map (Stmt.map f) := by
  induction body with
  | nil => rfl
  | cons s body ih => rw [Stmt.mapAll, ih, List.map_cons]

mutual
theorem Expr.nesting_map (f : α → β) : ∀ e : Expr α, (e.map f).nesting = e.nesting
  | .name _ => rfl
  | .number _ => rfl
  | .string _ => rfl
  | .call _ _ as _ => congrArg (· + 1) (Expr.nestingAll_mapAll f as)

theorem Expr.nestingAll_mapAll (f : α → β) :
    ∀ as : CommaList α (Expr α), Expr.nestingAll (Expr.mapAll f as) = Expr.nestingAll as
  | .one e => e.nesting_map f
  | .more e _ as => congrArg₂ max (e.nesting_map f) (Expr.nestingAll_mapAll f as)
end

mutual
theorem Stmt.nesting_map (f : α → β) : ∀ s : Stmt α, (s.map f).nesting = s.nesting
  | .declaration _ _ _ _ _ _ => rfl
  | .definition _ _ _ _ _ body _ => congrArg (· + 1) (Stmt.nestingAll_mapAll f body)
  | .constant _ _ _ e _ => e.nesting_map f
  | .return _ none _ => rfl
  | .return _ (some e) _ => e.nesting_map f
  | .expression e _ => e.nesting_map f

theorem Stmt.nestingAll_mapAll (f : α → β) :
    ∀ body : List (Stmt α), Stmt.nestingAll (Stmt.mapAll f body) = Stmt.nestingAll body
  | [] => rfl
  | s :: body => congrArg₂ max (s.nesting_map f) (Stmt.nestingAll_mapAll f body)
end

theorem TypeMark.leaves_map (f : α → β) (t : TypeMark α) :
    (t.map f).leaves = t.leaves.map (Prod.map id f) := rfl

theorem typeLeaves_map (f : α → β) (t : Option (TypeMark α)) :
    typeLeaves (t.map (TypeMark.map f)) = (typeLeaves t).map (Prod.map id f) := by
  cases t <;> rfl

theorem Param.leaves_map (f : α → β) (p : Param α) :
    (p.map f).leaves = p.leaves.map (Prod.map id f) :=
  congrArg (_ :: ·) (typeLeaves_map f p.type)

theorem Params.leaves_map (f : α → β) (ps : Params α) :
    (ps.map f).leaves = ps.leaves.map (Prod.map id f) := by
  have list (l : CommaList α (Param α)) : (l.map f (Param.map f)).leaves Param.leaves =
      (l.leaves Param.leaves).map (Prod.map id f) := by
    induction l with
    | one p => exact p.leaves_map f
    | more p c l ih => simp [CommaList.map, CommaList.leaves, p.leaves_map f, ih]
  obtain ⟨o, l, c⟩ := ps
  cases l with
  | none => rfl
  | some l => simp [Params.map, Params.leaves, list]

mutual
theorem Expr.leaves_map (f : α → β) : ∀ e : Expr α, (e.map f).leaves = e.leaves.map (Prod.map id f)
  | .name _ => rfl
  | .number _ => rfl
  | .string _ => rfl
  | .call _ _ as _ => by simp [Expr.map, Expr.leaves, Expr.leavesAll_mapAll f as]

theorem Expr.leavesAll_mapAll (f : α → β) : ∀ as : CommaList α (Expr α),
    Expr.leavesAll (Expr.mapAll f as) = (Expr.leavesAll as).map (Prod.map id f)
  | .one e => e.leaves_map f
  | .more e _ as => by
    simp [Expr.mapAll, Expr.leavesAll, e.leaves_map f, Expr.leavesAll_mapAll f as]
end

mutual
theorem Stmt.leaves_map (f : α → β) : ∀ s : Stmt α, (s.map f).leaves = s.leaves.map (Prod.map id f)
  | .declaration _ _ _ ps t _ => by simp [Stmt.map, Stmt.leaves, ps.leaves_map f, t.leaves_map f]
  | .definition _ _ ps t _ body _ => by
    simp [Stmt.map, Stmt.leaves, ps.leaves_map f, typeLeaves_map, Stmt.leavesAll_mapAll f body]
  | .constant _ id _ e _ => by simp [Stmt.map, Stmt.leaves, id.leaves_map f, e.leaves_map f]
  | .return _ none _ => rfl
  | .return _ (some e) _ => by simp [Stmt.map, Stmt.leaves, e.leaves_map f]
  | .expression e _ => by simp [Stmt.map, Stmt.leaves, e.leaves_map f]

theorem Stmt.leavesAll_mapAll (f : α → β) : ∀ body : List (Stmt α),
    Stmt.leavesAll (Stmt.mapAll f body) = (Stmt.leavesAll body).map (Prod.map id f)
  | [] => rfl
  | s :: body => by simp [Stmt.mapAll, Stmt.leavesAll, s.leaves_map f, Stmt.leavesAll_mapAll f body]
end

/-- However labels for the leaves of `d` are chosen over those it has, it is such a phrase
relabelled. -/
def Lifts (f : α → β) (leaves : γ → List (Kind × α)) (leaves' : δ → List (Kind × β)) (map : γ → δ)
    (d : δ) : Prop :=
  ∀ ls, ls.map (Prod.map id f) = leaves' d → ∃ c, leaves c = ls ∧ map c = d

theorem map_eq_leaf_iff {f : α → β} {ls : List (Kind × α)} {k : Kind} {b : β}
    {r : List (Kind × β)} : ls.map (Prod.map id f) = (k, b) :: r ↔
      ∃ a ls', ls = (k, a) :: ls' ∧ f a = b ∧ ls'.map (Prod.map id f) = r := by
  rw [List.map_eq_cons_iff]
  constructor
  · rintro ⟨⟨k', a⟩, ls', rfl, h, h'⟩
    obtain ⟨rfl, rfl⟩ := Prod.mk.inj h
    exact ⟨a, ls', rfl, rfl, h'⟩
  · rintro ⟨a, ls', rfl, rfl, h⟩
    exact ⟨(k, a), ls', rfl, rfl, h⟩

theorem map_eq_singleton_iff {f : α → β} {ls : List (Kind × α)} {k : Kind} {b : β} :
    ls.map (Prod.map id f) = [(k, b)] ↔ ∃ a, ls = [(k, a)] ∧ f a = b := by
  simp

theorem TypeMark.lifts (f : α → β) (t : TypeMark β) : Lifts f leaves leaves (map f) t := by
  obtain ⟨c, n⟩ := t
  intro ls h
  simp only [leaves, map_eq_leaf_iff, List.map_eq_nil_iff] at h
  obtain ⟨c, _, rfl, rfl, n, _, rfl, rfl, rfl⟩ := h
  exact ⟨⟨c, n⟩, rfl, rfl⟩

/-- A phrase that may be missing lifts if it does where it is there. -/
theorem Lifts.option {f : α → β} {leaves : γ → List (Kind × α)} {leaves' : δ → List (Kind × β)}
    {map : γ → δ} {d : Option δ} (h : ∀ x ∈ d, Lifts f leaves leaves' map x) :
    Lifts f (fun c => c.elim [] leaves) (fun c => c.elim [] leaves') (Option.map map) d := by
  intro ls hls
  cases d with
  | none => exact ⟨none, (List.map_eq_nil_iff.1 hls).symm, rfl⟩
  | some d =>
    obtain ⟨c, rfl, rfl⟩ := h d rfl ls hls
    exact ⟨some c, rfl, rfl⟩

theorem Param.lifts (f : α → β) (p : Param β) : Lifts f leaves leaves (map f) p := by
  obtain ⟨n, t⟩ := p
  intro ls h
  obtain ⟨n, ls, rfl, rfl, h⟩ := map_eq_leaf_iff.1 h
  obtain ⟨t, rfl, rfl⟩ := Lifts.option (fun t _ => t.lifts f) ls h
  exact ⟨⟨n, t⟩, rfl, rfl⟩

theorem CommaList.lifts {f : α → β} {lv : γ → List (Kind × α)} {lv' : δ → List (Kind × β)}
    {g : γ → δ} {l : CommaList β δ} (h : ∀ d ∈ l.toList, Lifts f lv lv' g d) :
    Lifts f (leaves lv) (leaves lv') (map f g) l := by
  induction l with
  | one d =>
    intro ls hls
    obtain ⟨c, rfl, rfl⟩ := h d (List.mem_singleton_self d) ls hls
    exact ⟨one c, rfl, rfl⟩
  | more d b l ih =>
    intro ls hls
    obtain ⟨front, ls, rfl, hfront, hls⟩ := List.map_eq_append_iff.1 hls
    obtain ⟨a, back, rfl, rfl, hback⟩ := map_eq_leaf_iff.1 hls
    obtain ⟨c, rfl, rfl⟩ := h d List.mem_cons_self front hfront
    obtain ⟨l, rfl, rfl⟩ := ih (fun d hd => h d (List.mem_cons_of_mem _ hd)) back hback
    exact ⟨more c a l, rfl, rfl⟩

theorem Params.lifts (f : α → β) (ps : Params β) : Lifts f leaves leaves (map f) ps := by
  obtain ⟨o, l, c⟩ := ps
  intro ls h
  simp only [leaves, map_eq_leaf_iff, List.map_eq_append_iff, List.map_eq_nil_iff] at h
  obtain ⟨o, _, rfl, rfl, ls, _, rfl, h, c, _, rfl, rfl, rfl⟩ := h
  obtain ⟨l, rfl, rfl⟩ := Lifts.option (fun l _ => CommaList.lifts fun p _ => p.lifts f) ls h
  exact ⟨⟨o, l, c⟩, rfl, rfl⟩

theorem Expr.lifts (f : α → β) (e : Expr β) : Lifts f leaves leaves (map f) e := by
  induction e using Expr.induction with
  | name n =>
    intro ls h
    obtain ⟨n, rfl, rfl⟩ := map_eq_singleton_iff.1 h
    exact ⟨.name n, rfl, rfl⟩
  | number n =>
    intro ls h
    obtain ⟨n, rfl, rfl⟩ := map_eq_singleton_iff.1 h
    exact ⟨.number n, rfl, rfl⟩
  | string s =>
    intro ls h
    obtain ⟨s, rfl, rfl⟩ := map_eq_singleton_iff.1 h
    exact ⟨.string s, rfl, rfl⟩
  | call g o as c ih =>
    intro ls h
    simp only [leaves, leavesAll_eq, map_eq_leaf_iff, List.map_eq_append_iff,
      List.map_eq_nil_iff] at h
    obtain ⟨g, _, rfl, rfl, o, _, rfl, rfl, ls, _, rfl, h, c, _, rfl, rfl, rfl⟩ := h
    obtain ⟨as, rfl, rfl⟩ := CommaList.lifts ih ls h
    exact ⟨.call g o as c, by rw [leaves, leavesAll_eq], by rw [map, mapAll_eq]⟩

theorem Stmt.liftsAll {f : α → β} {body : List (Stmt β)}
    (h : ∀ s ∈ body, Lifts f leaves leaves (map f) s) :
    Lifts f leavesAll leavesAll (mapAll f) body := by
  induction body with
  | nil =>
    intro ls hls
    exact ⟨[], (List.map_eq_nil_iff.1 hls).symm, rfl⟩
  | cons s body ih =>
    intro ls hls
    obtain ⟨front, back, rfl, hfront, hback⟩ := List.map_eq_append_iff.1 hls
    obtain ⟨s, rfl, rfl⟩ := h s List.mem_cons_self front hfront
    obtain ⟨body, rfl, rfl⟩ := ih (fun s hs => h s (List.mem_cons_of_mem _ hs)) back hback
    exact ⟨s :: body, rfl, rfl⟩

theorem Stmt.lifts (f : α → β) (s : Stmt β) : Lifts f leaves leaves (map f) s := by
  induction s using Stmt.induction with
  | declaration d g n ps t c =>
    intro ls h
    simp only [leaves, map_eq_leaf_iff, List.map_eq_append_iff, List.map_eq_nil_iff] at h
    obtain ⟨d, _, rfl, rfl, g, _, rfl, rfl, n, _, rfl, rfl, _, _, rfl, ⟨ls, ls', rfl, hps, ht⟩,
      c, _, rfl, rfl, rfl⟩ := h
    obtain ⟨ps, rfl, rfl⟩ := ps.lifts f ls hps
    obtain ⟨t, rfl, rfl⟩ := t.lifts f ls' ht
    exact ⟨.declaration d g n ps t c, rfl, rfl⟩
  | definition g n ps t o body c ih =>
    intro ls h
    simp only [leaves, map_eq_leaf_iff, List.map_eq_append_iff, List.map_eq_nil_iff] at h
    obtain ⟨g, _, rfl, rfl, n, _, rfl, rfl, _, _, rfl, ⟨ls, ls', rfl, hps, ht⟩, o, _, rfl, rfl,
      ls'', _, rfl, hbody, c, _, rfl, rfl, rfl⟩ := h
    obtain ⟨ps, rfl, rfl⟩ := ps.lifts f ls hps
    obtain ⟨t, rfl, rfl⟩ := Lifts.option (fun t _ => t.lifts f) ls' ht
    obtain ⟨body, rfl, rfl⟩ := Stmt.liftsAll ih ls'' hbody
    exact ⟨.definition g n ps t o body c, rfl, rfl⟩
  | constant k id a e c =>
    intro ls h
    simp only [leaves, map_eq_leaf_iff, List.map_eq_append_iff, List.map_eq_nil_iff] at h
    obtain ⟨k, _, rfl, rfl, ls, _, rfl, hid, a, _, rfl, rfl, ls', _, rfl, he, c, _, rfl, rfl,
      rfl⟩ := h
    obtain ⟨id, rfl, rfl⟩ := id.lifts f ls hid
    obtain ⟨e, rfl, rfl⟩ := e.lifts f ls' he
    exact ⟨.constant k id a e c, rfl, rfl⟩
  | return_ k e c =>
    intro ls h
    simp only [leaves, map_eq_leaf_iff, List.map_eq_append_iff, List.map_eq_nil_iff] at h
    obtain ⟨k, _, rfl, rfl, ls, _, rfl, he, c, _, rfl, rfl, rfl⟩ := h
    obtain ⟨e, rfl, rfl⟩ := Lifts.option (fun e _ => e.lifts f) ls he
    exact ⟨.return k e c, rfl, rfl⟩
  | expression e c =>
    intro ls h
    simp only [leaves, map_eq_leaf_iff, List.map_eq_append_iff, List.map_eq_nil_iff] at h
    obtain ⟨ls, _, rfl, he, c, _, rfl, rfl, rfl⟩ := h
    obtain ⟨e, rfl, rfl⟩ := e.lifts f ls he
    exact ⟨.expression e c, rfl, rfl⟩

/-- **Labels**: what is derived with some labels is derived with any labels over them. -/
theorem Stmt.exists_mapAll {f : α → β} {body : List (Stmt β)} {ls : List (Kind × α)}
    (h : ls.map (Prod.map id f) = Stmt.leavesAll body) :
    ∃ body', Stmt.leavesAll body' = ls ∧ Stmt.mapAll f body' = body :=
  Stmt.liftsAll (fun s _ => s.lifts f) ls h

/-- A derivation without its labels. -/
def Stmt.shapeAll (body : List (Stmt α)) : List (Stmt Unit) := Stmt.mapAll (fun _ => ()) body

/-- A derivation of kinds is one of any tokens of these kinds. -/
theorem Stmt.exists_shapeAll {shape : List (Stmt Unit)} {ts : List Token}
    (h : Stmt.kindsAll shape = ts.map Token.kind) :
    ∃ body, Stmt.leavesAll body = ts.map (fun t => (t.kind, t)) ∧ Stmt.shapeAll body = shape := by
  refine Stmt.exists_mapAll ?_
  calc (ts.map fun t => (t.kind, t)).map (Prod.map id fun _ => ())
      = (ts.map Token.kind).map fun k => (k, ()) := by simp [List.map_map, Function.comp_def]
    _ = (Stmt.leavesAll shape).map fun l => (l.1, ()) := by
      rw [← h, Stmt.kindsAll, List.map_map]; rfl
    _ = Stmt.leavesAll shape := List.map_id' _

@[simp] theorem Stmt.nestingAll_shapeAll (body : List (Stmt α)) :
    Stmt.nestingAll (Stmt.shapeAll body) = Stmt.nestingAll body := Stmt.nestingAll_mapAll _ body

theorem Stmt.kindsAll_shapeAll {body : List (Stmt Token)} {ts : List Token}
    (h : Stmt.leavesAll body = ts.map fun t => (t.kind, t)) :
    Stmt.kindsAll (Stmt.shapeAll body) = ts.map Token.kind := by
  rw [Stmt.kindsAll, Stmt.shapeAll, Stmt.leavesAll_mapAll, h]
  simp [List.map_map, Function.comp_def]

/-! ### Trees -/

/-- The tree of a name. -/
def nameTree (t : Token) : Identifier := ⟨t.span, t.text, none⟩

/-- The tree of a name and its type. -/
def Param.tree (p : Param Token) : Identifier :=
  ⟨p.name.span, p.name.text, p.type.map fun t => t.name.text⟩

/-- The trees of parameters. -/
def Params.trees (ps : Params Token) : List Identifier :=
  ps.list.elim [] fun l => l.toList.map Param.tree

mutual
/-- The tree of an expression. A call goes from its name to its closing parenthesis. -/
def Expr.tree : Expr Token → Expression
  | .name n => .identifier (nameTree n)
  | .number n => .number n.span (Binary64.ofDigits n.text) n.text
  | .string s => .string s.span (s.text.drop 1).dropLast s.text
  | .call f _ as c => .call ⟨f.start, c.stop⟩ (nameTree f) (Expr.treeAll as)

/-- The trees of arguments. -/
def Expr.treeAll : CommaList Token (Expr Token) → List Expression
  | .one e => [e.tree]
  | .more e _ as => e.tree :: Expr.treeAll as
end

mutual
/-- The tree of a statement. The semicolon that ends it is not in its span. -/
def Stmt.tree : Stmt Token → Statement
  | .declaration d _ n ps t _ =>
    .declaration ⟨d.start, t.name.stop⟩ (nameTree n) ps.trees (some t.name.text)
  | .definition f n ps t o body c =>
    .definition ⟨f.start, c.stop⟩ (nameTree n) ps.trees (t.map fun t => t.name.text)
      ⟨o.start, c.stop⟩
      (Stmt.treeAll body)
  | .constant k id _ e _ => .constant ⟨k.start, e.tree.span.stop⟩ id.tree e.tree
  | .return k e _ =>
    .return ⟨k.start, e.elim (k.stop : Int) fun e => e.tree.span.stop⟩ (e.map Expr.tree)
  | .expression e _ => .expression e.tree

/-- The trees of statements. -/
def Stmt.treeAll : List (Stmt Token) → List Statement
  | [] => []
  | s :: body => s.tree :: Stmt.treeAll body
end

theorem Expr.treeAll_eq (as : CommaList Token (Expr Token)) :
    Expr.treeAll as = as.toList.map Expr.tree := by
  induction as with
  | one e => rfl
  | more e c as ih => rw [Expr.treeAll, ih]; rfl

theorem Stmt.treeAll_eq (body : List (Stmt Token)) : Stmt.treeAll body = body.map Stmt.tree := by
  induction body with
  | nil => rfl
  | cons s body ih => rw [Stmt.treeAll, ih, List.map_cons]

/-! ### Shapes -/

theorem CommaList.map_eq_of_toList {f : β → γ} {g : β → δ} {l l' : CommaList α β}
    (h : ∀ b ∈ l.toList, ∀ b', f b = f b' → g b = g b') (e : l.toList.map f = l'.toList.map f) :
    l.map (fun _ => ()) g = l'.map (fun _ => ()) g := by
  induction l generalizing l' with
  | one b =>
    cases l' with
    | one b' => exact congrArg one (h b List.mem_cons_self b' (List.cons.inj e).1)
    | more b' c l' => cases l' <;> cases (List.cons.inj e).2
  | more b c l ih =>
    cases l' with
    | one b' => cases l <;> cases (List.cons.inj e).2
    | more b' c' l' =>
      obtain ⟨hb, hl⟩ := List.cons.inj e
      rw [map, map, h b List.mem_cons_self b' hb,
        ih (fun b hb => h b (List.mem_cons_of_mem _ hb)) hl]

theorem Param.shape_eq_of_tree_eq {p p' : Param Token} (h : p.tree = p'.tree) :
    p.map (fun _ => ()) = p'.map fun _ => () := by
  obtain ⟨n, t⟩ := p
  obtain ⟨n', t'⟩ := p'
  cases t <;> cases t' <;> simp_all [Param.tree, Param.map, TypeMark.map]

theorem Params.shape_eq_of_trees_eq {ps ps' : Params Token} (h : ps.trees = ps'.trees) :
    ps.map (fun _ => ()) = ps'.map fun _ => () := by
  obtain ⟨o, l, c⟩ := ps
  obtain ⟨o', l', c'⟩ := ps'
  cases l with
  | none =>
    cases l' with
    | none => rfl
    | some l' => cases l' <;> cases h
  | some l =>
    cases l' with
    | none => cases l <;> cases h
    | some l' =>
      have := CommaList.map_eq_of_toList (fun p _ p' => Param.shape_eq_of_tree_eq) h
      simp [Params.map, this]

theorem Expr.shape_eq_of_tree_eq {e e' : Expr Token} (h : e.tree = e'.tree) :
    e.map (fun _ => ()) = e'.map fun _ => () := by
  induction e using Expr.induction generalizing e' with
  | name n =>
    cases e' with
    | name => rfl
    | number | string | call => simp [tree] at h
  | number n =>
    cases e' with
    | number => rfl
    | name | string | call => simp [tree] at h
  | string s =>
    cases e' with
    | string => rfl
    | name | number | call => simp [tree] at h
  | call f o as c ih =>
    cases e' with
    | call f' o' as' c' =>
      simp only [tree, treeAll_eq, Expression.call.injEq] at h
      have := CommaList.map_eq_of_toList (fun e he e' => ih e he) h.2.2
      simp [map, mapAll_eq, this]
    | name | number | string => simp [tree] at h

theorem Stmt.shapeAll_eq_of_treeAll_eq {body body' : List (Stmt Token)}
    (h : ∀ s ∈ body, ∀ s' : Stmt Token, s.tree = s'.tree → s.map (fun _ => ()) = s'.map fun _ => ())
    (e : Stmt.treeAll body = Stmt.treeAll body') : Stmt.shapeAll body = Stmt.shapeAll body' := by
  induction body generalizing body' with
  | nil =>
    cases body' with
    | nil => rfl
    | cons s' body' => cases e
  | cons s body ih =>
    cases body' with
    | nil => cases e
    | cons s' body' =>
      obtain ⟨hs, hbody⟩ := List.cons.inj e
      exact congrArg₂ List.cons (h s List.mem_cons_self s' hs)
        (ih (fun s hs => h s (List.mem_cons_of_mem _ hs)) hbody)

theorem Stmt.shape_eq_of_tree_eq {s s' : Stmt Token} (h : s.tree = s'.tree) :
    s.map (fun _ => ()) = s'.map fun _ => () := by
  induction s using Stmt.induction generalizing s' with
  | declaration d f n ps t c =>
    cases s' with
    | declaration d' f' n' ps' t' c' =>
      simp only [tree, Statement.declaration.injEq] at h
      simp [map, Params.shape_eq_of_trees_eq h.2.2.1, TypeMark.map]
    | definition | constant | «return» | expression => simp [tree] at h
  | definition f n ps t o body c ih =>
    cases s' with
    | definition f' n' ps' t' o' body' c' =>
      simp only [tree, Statement.definition.injEq] at h
      have hbody := shapeAll_eq_of_treeAll_eq (fun s hs s' => ih s hs) h.2.2.2.2.2
      have ht : t.map (TypeMark.map fun _ => ()) = t'.map (TypeMark.map fun _ => ()) := by
        have := h.2.2.2.1
        cases t <;> cases t' <;> simp_all [TypeMark.map]
      rw [map, map, Params.shape_eq_of_trees_eq h.2.2.1, ht]
      exact congrArg (Stmt.definition () () _ _ () · ()) hbody
    | declaration | constant | «return» | expression => simp [tree] at h
  | constant k id a e c =>
    cases s' with
    | constant k' id' a' e' c' =>
      simp only [tree, Statement.constant.injEq] at h
      simp [map, Param.shape_eq_of_tree_eq h.2.1, Expr.shape_eq_of_tree_eq h.2.2]
    | declaration | definition | «return» | expression => simp [tree] at h
  | return_ k e c =>
    cases s' with
    | «return» k' e' c' =>
      simp only [tree, Statement.return.injEq] at h
      cases e with
      | none =>
        cases e' with
        | none => rfl
        | some e' => cases h.2
      | some e =>
        cases e' with
        | none => cases h.2
        | some e' => simp [map, Expr.shape_eq_of_tree_eq (Option.some.inj h.2)]
    | declaration | definition | constant | expression => simp [tree] at h
  | expression e c =>
    cases s' with
    | expression e' c' => simp [map, Expr.shape_eq_of_tree_eq (Statement.expression.inj h)]
    | declaration | definition | constant | «return» => simp [tree] at h

end Scriptlet.Grammar
