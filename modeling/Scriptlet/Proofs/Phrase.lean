import Mathlib.Logic.Relation
import Scriptlet.Proofs.Parse
import Scriptlet.Tree.Walk

/-!
# The phrases behind nodes

Every node of a tree that the parser returns comes from a phrase of the derivation, and the nodes
below it come from the parts of that phrase. The parts are laid out in the phrase from left to right
(`Phrase.laid_parts`). So the leaves of a phrase stand side by side among the tokens of the text,
and its node goes from the first of them to the last (`Phrase.covers`); only the type behind a name
and the semicolon behind a statement are left out.
-/

namespace Scriptlet

/-! ### Nodes -/

/-- The second node lies directly below the first. -/
def Node.IsParent (n m : Node) : Prop := ∃ s ∈ n.children, m = .statement s

/-- The node lies below another one. -/
def Node.Below (n m : Node) : Prop := Relation.TransGen Node.IsParent m n

/-- The nodes of a program: the program itself, and with a node those directly below it. -/
def Program.HasNode (p : Program) (n : Node) : Prop :=
  Relation.ReflTransGen Node.IsParent (.program p) n

namespace Grammar

/-! ### Phrases -/

/-- A part of a derivation that has a node of its own. -/
inductive Phrase where
  /-- A name, with a type or without. -/
  | name (p : Param Token)
  /-- An expression. -/
  | expr (e : Expr Token)
  /-- Statements between braces. -/
  | block (opening : Token) (body : List (Stmt Token)) (closing : Token)
  /-- A statement. -/
  | stmt (s : Stmt Token)

/-- The leaves of a statement without the semicolon that ends it. -/
def Stmt.core {α : Type} : Stmt α → List (Kind × α)
  | .declaration d f n ps t _ =>
    (.declare, d) :: (.function, f) :: (.identifier, n) :: (ps.leaves ++ t.leaves)
  | .definition f n ps t o body c =>
    (.function, f) :: (.identifier, n) :: (ps.leaves ++ typeLeaves t ++
      (.openBrace, o) :: (Stmt.leavesAll body ++ [(.closeBrace, c)]))
  | .constant k id a e _ => (.const, k) :: (id.leaves ++ (.assign, a) :: e.leaves)
  | .return k e _ => (.return, k) :: e.elim [] Expr.leaves
  | .expression e _ => e.leaves

/-- The semicolon that ends a statement. No semicolon ends a function with a body. -/
def Stmt.semicolon {α : Type} : Stmt α → Option α
  | .definition _ _ _ _ _ _ _ => none
  | .declaration _ _ _ _ _ c | .constant _ _ _ _ c | .return _ _ c | .expression _ c => some c

theorem Stmt.leaves_eq {α : Type} (s : Stmt α) :
    s.leaves = s.core ++ s.semicolon.toList.map fun c => (.semicolon, c) := by
  cases s <;> simp [leaves, core, semicolon]

namespace Phrase

/-- The leaves that the node of a phrase covers. -/
def core : Phrase → List (Kind × Token)
  | name p => [(.identifier, p.name)]
  | expr e => e.leaves
  | block o body c => (.openBrace, o) :: (Stmt.leavesAll body ++ [(.closeBrace, c)])
  | stmt s => s.core

/-- The node of a phrase. -/
def tree : Phrase → Statement
  | name p => p.tree.statement
  | expr e => .expression e.tree
  | block o body c => .block ⟨o.start, c.stop⟩ (Stmt.treeAll body)
  | stmt s => s.tree

/-- How many blocks and arguments are open at once in a phrase, at most. -/
def nesting : Phrase → Nat
  | name _ => 0
  | expr e => e.nesting
  | block _ body _ => Stmt.nestingAll body + 1
  | stmt s => s.nesting

/-- The names of parameters. -/
def ofParams (ps : Params Token) : List Phrase := ps.list.elim [] fun l => l.toList.map name

/-- The name and the arguments of a call. -/
def ofExpr : Expr Token → List Phrase
  | .call f _ as _ => name ⟨f, none⟩ :: as.toList.map expr
  | _ => []

/-- The phrases directly in a phrase, from left to right. -/
def parts : Phrase → List Phrase
  | name _ => []
  | expr e => ofExpr e
  | block _ body _ => body.map stmt
  | stmt (.declaration _ _ n ps _ _) => name ⟨n, none⟩ :: ofParams ps
  | stmt (.definition _ n ps _ o body c) => name ⟨n, none⟩ :: (ofParams ps ++ [block o body c])
  | stmt (.constant _ id _ e _) => [name id, expr e]
  | stmt (.return _ e _) => e.toList.map expr
  | stmt (.expression e _) => ofExpr e

theorem map_tree_ofParams (ps : Params Token) :
    (ofParams ps).map tree = ps.trees.map Identifier.statement := by
  obtain ⟨o, l, c⟩ := ps
  cases l with
  | none => rfl
  | some l => simp [ofParams, Params.trees, Function.comp_def, tree]

theorem map_tree_ofExpr (e : Expr Token) :
    (ofExpr e).map tree = (Statement.expression e.tree).children := by
  cases e with
  | call f o as c =>
    rw [ofExpr, Expr.tree, Statement.children, Expr.treeAll_eq, List.map_cons, List.map_map,
      List.map_map]
    rfl
  | name | number | string => rfl

/-- **The nodes below a node are those of the parts of its phrase.** -/
theorem children_tree (q : Phrase) : q.tree.children = q.parts.map tree := by
  cases q with
  | name p => rfl
  | expr e => exact (map_tree_ofExpr e).symm
  | block o body c =>
    rw [tree, Statement.children, parts, Stmt.treeAll_eq, List.map_map]
    rfl
  | stmt s =>
    cases s with
    | declaration d f n ps t c =>
      rw [parts, List.map_cons, map_tree_ofParams]
      rfl
    | definition f n ps t o body c =>
      rw [parts, List.map_cons, List.map_append, map_tree_ofParams]
      rfl
    | constant k id a e c => rfl
    | «return» k e c => cases e <;> rfl
    | expression e c => exact (map_tree_ofExpr e).symm

/-! ### Parts from left to right -/

/-- `Laid qs ls`: the phrases `qs` stand among the leaves `ls`, from left to right. -/
inductive Laid : List Phrase → List (Kind × Token) → Prop where
  /-- No phrase. -/
  | nil (ls : List (Kind × Token)) : Laid [] ls
  /-- One phrase alone. -/
  | single (q : Phrase) : Laid [q] q.core
  /-- Phrases and then others. -/
  | append {qs qs' : List Phrase} {ls ls' : List (Kind × Token)} : Laid qs ls → Laid qs' ls' →
      Laid (qs ++ qs') (ls ++ ls')

/-- The leaves of a phrase stand side by side. -/
theorem Laid.isInfix {qs : List Phrase} {ls : List (Kind × Token)} (h : Laid qs ls) :
    ∀ q ∈ qs, q.core <:+: ls := by
  induction h with
  | nil => exact fun _ hq => absurd hq List.not_mem_nil
  | single q => exact fun q' hq' => List.mem_singleton.1 hq' ▸ List.infix_refl _
  | append _ _ ih ih' =>
    intro q hq
    rcases List.mem_append.1 hq with hq | hq
    · exact (ih q hq).trans (List.prefix_append _ _).isInfix
    · exact (ih' q hq).trans (List.suffix_append _ _).isInfix

theorem laid_commaList {β : Type} {leaves : β → List (Kind × Token)} {phrase : β → Phrase}
    (h : ∀ b, Laid [phrase b] (leaves b)) (l : CommaList Token β) :
    Laid (l.toList.map phrase) (l.leaves leaves) := by
  induction l with
  | one b => exact h b
  | more b c l ih => exact (h b).append ((Laid.nil [(.comma, c)]).append ih)

theorem laid_name (p : Param Token) : Laid [name p] p.leaves :=
  (Laid.single (name p)).append (.nil _)

theorem laid_ofParams (ps : Params Token) : Laid (ofParams ps) ps.leaves := by
  obtain ⟨o, l, c⟩ := ps
  cases l with
  | none => exact .nil _
  | some l =>
    have hl := (laid_commaList laid_name l).append (.nil [(.closeParen, c)])
    rw [List.append_nil] at hl
    exact (Laid.nil [(.openParen, o)]).append hl

theorem laid_ofExpr (e : Expr Token) : Laid (ofExpr e) e.leaves := by
  cases e with
  | call f o as c =>
    have has := (laid_commaList (fun e => .single (expr e)) as).append (.nil [(.closeParen, c)])
    rw [List.append_nil] at has
    rw [Expr.leaves, Expr.leavesAll_eq]
    exact (Laid.single (name ⟨f, none⟩)).append ((Laid.nil [(.openParen, o)]).append has)
  | name | number | string => exact .nil _

theorem laid_stmt (s : Stmt Token) : Laid [stmt s] s.leaves := by
  rw [Stmt.leaves_eq]
  exact (Laid.single (stmt s)).append (.nil _)

theorem laid_body (body : List (Stmt Token)) : Laid (body.map stmt) (Stmt.leavesAll body) := by
  induction body with
  | nil => exact .nil _
  | cons s body ih => exact (laid_stmt s).append ih

theorem laid_block (o : Token) (body : List (Stmt Token)) (c : Token) :
    Laid (body.map stmt) (block o body c).core := by
  have hbody := (laid_body body).append (.nil [(.closeBrace, c)])
  rw [List.append_nil] at hbody
  exact (Laid.nil [(.openBrace, o)]).append hbody

/-- **The parts of a phrase are laid out in it from left to right.** -/
theorem laid_parts (q : Phrase) : Laid q.parts q.core := by
  cases q with
  | name p => exact .nil _
  | expr e => exact laid_ofExpr e
  | block o body c => exact laid_block o body c
  | stmt s =>
    cases s with
    | declaration d f n ps t c =>
      have hps := (laid_ofParams ps).append (.nil t.leaves)
      rw [List.append_nil] at hps
      exact (Laid.nil [(.declare, d), (.function, f)]).append
        ((Laid.single (name ⟨n, none⟩)).append hps)
    | definition f n ps t o body c =>
      have hps := (laid_ofParams ps).append (.nil (typeLeaves t))
      rw [List.append_nil] at hps
      exact (Laid.nil [(.function, f)]).append
        ((Laid.single (name ⟨n, none⟩)).append (hps.append (.single (block o body c))))
    | constant k id a e c =>
      exact (Laid.nil [(.const, k)]).append
        ((laid_name id).append ((Laid.nil [(.assign, a)]).append (.single (expr e))))
    | «return» k e c =>
      cases e with
      | none => exact .nil _
      | some e => exact (Laid.nil [(.return, k)]).append (.single (expr e))
    | expression e c => exact laid_ofExpr e

/-! ### Nesting of parts -/

theorem nesting_ofExpr {e : Expr Token} : ∀ q ∈ ofExpr e, q.nesting ≤ e.nesting := by
  cases e with
  | call f o as c =>
    have has := Expr.nestingAll_le_iff.1 (Nat.le_refl (Expr.nestingAll as))
    simp only [ofExpr, List.forall_mem_cons, List.mem_map]
    refine ⟨Nat.zero_le _, ?_⟩
    rintro _ ⟨e, he, rfl⟩
    exact Nat.le_succ_of_le (has e he)
  | name | number | string => exact fun _ hq => absurd hq List.not_mem_nil

theorem nesting_body {body : List (Stmt Token)} :
    ∀ q ∈ body.map stmt, q.nesting ≤ Stmt.nestingAll body := by
  have hbody := Stmt.nestingAll_le_iff.1 (Nat.le_refl (Stmt.nestingAll body))
  simp only [List.mem_map]
  rintro _ ⟨s, hs, rfl⟩
  exact hbody s hs

theorem nesting_ofParams {ps : Params Token} {n : Nat} : ∀ q ∈ ofParams ps, q.nesting ≤ n := by
  obtain ⟨o, l, c⟩ := ps
  cases l with
  | none => exact fun _ hq => absurd hq List.not_mem_nil
  | some l =>
    simp only [ofParams, Option.elim_some, List.mem_map]
    rintro _ ⟨p, -, rfl⟩
    exact Nat.zero_le n

/-- A part is nested no deeper than the phrase. -/
theorem nesting_parts (q : Phrase) : ∀ r ∈ q.parts, r.nesting ≤ q.nesting := by
  cases q with
  | name p => exact fun _ h => absurd h List.not_mem_nil
  | expr e => exact nesting_ofExpr
  | block o body c => exact fun r h => Nat.le_succ_of_le (nesting_body r h)
  | stmt s =>
    cases s with
    | declaration d f n ps t c => exact List.forall_mem_cons.2 ⟨Nat.le_refl 0, nesting_ofParams⟩
    | definition f n ps t o body c =>
      refine List.forall_mem_cons.2 ⟨Nat.zero_le _, List.forall_mem_append.2 ⟨nesting_ofParams, ?_⟩⟩
      exact List.forall_mem_singleton.2 (Nat.le_refl _)
    | constant k id a e c =>
      exact List.forall_mem_cons.2 ⟨Nat.zero_le _, List.forall_mem_singleton.2 (Nat.le_refl _)⟩
    | «return» k e c =>
      cases e with
      | none => exact fun _ h => absurd h List.not_mem_nil
      | some e => exact List.forall_mem_singleton.2 (Nat.le_refl _)
    | expression e c => exact nesting_ofExpr

end Phrase

/-! ### What a node covers -/

/-- The span goes from the start of the first leaf to the end of the last, which is no semicolon. -/
def Covers (ls : List (Kind × Token)) (s : Span) : Prop :=
  ∃ a ∈ ls.head?, ∃ b ∈ ls.getLast?, b.1 ≠ .semicolon ∧ s = ⟨a.2.start, b.2.stop⟩

theorem covers_cons_append (a : Kind × Token) {b : Kind × Token} (hb : b.1 ≠ .semicolon)
    (ls : List (Kind × Token)) : Covers (a :: (ls ++ [b])) ⟨a.2.start, b.2.stop⟩ :=
  ⟨a, rfl, b, by rw [← List.cons_append, List.getLast?_append]; rfl, hb, rfl⟩

/-- What stands before does not change the end. -/
theorem Covers.cons_append {ls : List (Kind × Token)} {s : Span} (h : Covers ls s)
    (a : Kind × Token) (before : List (Kind × Token)) :
    Covers (a :: (before ++ ls)) ⟨a.2.start, s.stop⟩ := by
  obtain ⟨_, _, b, hb, hkind, rfl⟩ := h
  refine ⟨a, rfl, b, ?_, hkind, rfl⟩
  rw [Option.mem_def] at hb ⊢
  rw [← List.cons_append, List.getLast?_append, hb]
  rfl

theorem Expr.covers (e : Expr Token) : Covers e.leaves e.tree.span := by
  cases e with
  | call f o as c => exact covers_cons_append _ (by nofun) (_ :: _)
  | name t | number t | string t => exact ⟨_, rfl, _, rfl, nofun, rfl⟩

/-- **The node of a phrase goes from its first leaf to its last.** -/
theorem Phrase.covers (q : Phrase) : Covers q.core q.tree.span := by
  cases q with
  | name p => exact ⟨_, rfl, _, rfl, nofun, rfl⟩
  | expr e => exact e.covers
  | block o body c => exact covers_cons_append _ (by nofun) _
  | stmt s =>
    cases s with
    | declaration d f n ps t c =>
      have hcore : (stmt (.declaration d f n ps t c)).core = (.declare, d) ::
          (((.function, f) :: (.identifier, n) :: (ps.leaves ++ [(.colon, t.colon)])) ++
            [(.identifier, t.name)]) := by
        simp [core, Stmt.core, TypeMark.leaves]
      rw [hcore]
      exact covers_cons_append _ (by nofun) _
    | definition f n ps t o body c =>
      have hcore : (stmt (.definition f n ps t o body c)).core = (.function, f) ::
          (((.identifier, n) :: (ps.leaves ++ typeLeaves t)) ++ (block o body c).core) := by
        simp [core, Stmt.core]
      rw [hcore]
      exact (block o body c).covers.cons_append _ _
    | constant k id a e c =>
      have hcore : (stmt (.constant k id a e c)).core = (.const, k) ::
          ((id.leaves ++ [(.assign, a)]) ++ e.leaves) := by
        simp [core, Stmt.core]
      rw [hcore]
      exact e.covers.cons_append _ _
    | «return» k e c =>
      cases e with
      | none => exact ⟨_, rfl, _, rfl, nofun, rfl⟩
      | some e => exact e.covers.cons_append (.return, k) []
    | expression e c => exact e.covers

end Grammar

/-! ### The nodes of a program -/

open Grammar

/-- **Every node but the program itself is the node of a phrase**, whose leaves stand side by side
among those of the program, and which is nested no deeper. -/
theorem Program.HasNode.exists_phrase {p : Program} {n : Node} {d : List (Stmt Token)}
    (h : p.HasNode n) (hp : p.body = Stmt.treeAll d) :
    n = .program p ∨ ∃ q : Phrase, n = .statement q.tree ∧ q.core <:+: Stmt.leavesAll d ∧
      q.nesting ≤ Stmt.nestingAll d := by
  induction h with
  | refl => exact .inl rfl
  | tail _ hchild ih =>
    right
    obtain ⟨s, hs, rfl⟩ := hchild
    rcases ih with rfl | ⟨q, rfl, hcore, hnest⟩
    · rw [Node.children, hp, Stmt.treeAll_eq] at hs
      obtain ⟨s, hd, rfl⟩ := List.mem_map.1 hs
      have hmem : Phrase.stmt s ∈ d.map .stmt := List.mem_map_of_mem hd
      exact ⟨.stmt s, rfl, (Phrase.laid_body d).isInfix _ hmem, Phrase.nesting_body _ hmem⟩
    · rw [Node.children, Phrase.children_tree] at hs
      obtain ⟨r, hr, rfl⟩ := List.mem_map.1 hs
      exact ⟨r, rfl, (q.laid_parts.isInfix r hr).trans hcore,
        Nat.le_trans (q.nesting_parts r hr) hnest⟩

end Scriptlet
