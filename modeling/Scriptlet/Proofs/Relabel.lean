import Scriptlet.Proofs.Parse

/-!
# Trees with other places

A tree has two kinds of things that come from the labels of its derivation: places, and the texts of
names, numbers and strings. Where other tokens are put for the labels, and their starts and ends are
replaced in one way throughout, the tree changes in its places alone, and in the same way
(`Stmt.tree_map`).
-/

namespace Scriptlet

open Grammar

/-! ### Places in a tree -/

/-- The span with its start and its end replaced. -/
def Span.map (f g : Int → Int) (s : Span) : Span := ⟨f s.start, g s.stop⟩

/-- The name with its span replaced. -/
def Identifier.mapSpan (f g : Int → Int) (id : Identifier) : Identifier :=
  { id with span := id.span.map f g }

mutual
/-- The expression with the start of every span replaced by `f`, and the end by `g`. -/
def Expression.mapSpans (f g : Int → Int) : Expression → Expression
  | .identifier id => .identifier (id.mapSpan f g)
  | .number span value raw => .number (span.map f g) value raw
  | .string span value raw => .string (span.map f g) value raw
  | .call span callee args => .call (span.map f g) (callee.mapSpan f g)
      (Expression.mapSpansAll f g args)

/-- The expressions with their spans replaced. -/
def Expression.mapSpansAll (f g : Int → Int) : List Expression → List Expression
  | [] => []
  | e :: es => e.mapSpans f g :: Expression.mapSpansAll f g es
end

mutual
/-- The statement with the start of every span replaced by `f`, and the end by `g`. -/
def Statement.mapSpans (f g : Int → Int) : Statement → Statement
  | .declaration span id params returnType =>
    .declaration (span.map f g) (id.mapSpan f g) (params.map (Identifier.mapSpan f g)) returnType
  | .definition span id params returnType bodySpan body =>
    .definition (span.map f g) (id.mapSpan f g) (params.map (Identifier.mapSpan f g)) returnType
      (bodySpan.map f g) (Statement.mapSpansAll f g body)
  | .constant span id value => .constant (span.map f g) (id.mapSpan f g) (value.mapSpans f g)
  | .return span argument => .return (span.map f g) (argument.map (Expression.mapSpans f g))
  | .expression e => .expression (e.mapSpans f g)
  | .block span body => .block (span.map f g) (Statement.mapSpansAll f g body)

/-- The statements with their spans replaced. -/
def Statement.mapSpansAll (f g : Int → Int) : List Statement → List Statement
  | [] => []
  | s :: body => s.mapSpans f g :: Statement.mapSpansAll f g body
end

section MapSpans

variable (f g : Int → Int)

theorem Expression.span_mapSpans (e : Expression) : (e.mapSpans f g).span = e.span.map f g := by
  cases e <;> rfl

theorem Expression.mapSpansAll_eq (es : List Expression) :
    Expression.mapSpansAll f g es = es.map (Expression.mapSpans f g) := by
  induction es with
  | nil => rfl
  | cons e es ih => rw [Expression.mapSpansAll, ih, List.map_cons]

theorem Statement.mapSpansAll_eq (body : List Statement) :
    Statement.mapSpansAll f g body = body.map (Statement.mapSpans f g) := by
  induction body with
  | nil => rfl
  | cons s body ih => rw [Statement.mapSpansAll, ih, List.map_cons]

end MapSpans

/-! ### Derivations with other labels -/

/-- Does it matter how a token of the kind is spelt? It does for names, numbers and strings. -/
def Kind.hasText (k : Kind) : Bool := k = .identifier || k.isLiteral

/-- A leaf whose token is replaced as the places in a tree are: its start by `f`, its end by `g`,
and its text stays where it matters. -/
structure Relabels (φ : Token → Token) (f g : Int → Int) (l : Kind × Token) : Prop where
  start : ((φ l.2).start : Int) = f l.2.start
  stop : ((φ l.2).stop : Int) = g l.2.stop
  text : l.1.hasText = true → (φ l.2).text = l.2.text

namespace Grammar

variable {φ : Token → Token} {f g : Int → Int}

theorem span_relabelled {k k' : Kind} {a b : Token} (ha : Relabels φ f g (k, a))
    (hb : Relabels φ f g (k', b)) :
    (⟨(φ a).start, (φ b).stop⟩ : Span) = Span.map f g ⟨a.start, b.stop⟩ := by
  rw [ha.start, hb.stop]
  rfl

theorem nameTree_map {t : Token} (h : Relabels φ f g (.identifier, t)) :
    nameTree (φ t) = (nameTree t).mapSpan f g := by
  unfold nameTree Token.span
  rw [span_relabelled h h, h.text rfl]
  rfl

theorem typeText_map {t : Option (TypeMark Token)} (h : ∀ l ∈ typeLeaves t, Relabels φ f g l) :
    ((t.map (TypeMark.map φ)).map fun t => t.name.text) = t.map fun t => t.name.text := by
  cases t with
  | none => rfl
  | some t =>
    have hname := h (.identifier, t.name) (by simp [typeLeaves, TypeMark.leaves])
    simp [TypeMark.map, hname.text rfl]

theorem Param.tree_map {p : Param Token} (h : ∀ l ∈ p.leaves, Relabels φ f g l) :
    (p.map φ).tree = p.tree.mapSpan f g := by
  obtain ⟨hname, htype⟩ := List.forall_mem_cons.1 h
  unfold Param.tree Param.map Token.span
  rw [typeText_map htype, span_relabelled hname hname, hname.text rfl]
  rfl

theorem Params.trees_map {ps : Params Token} (h : ∀ l ∈ ps.leaves, Relabels φ f g l) :
    (ps.map φ).trees = ps.trees.map (Identifier.mapSpan f g) := by
  obtain ⟨o, l, c⟩ := ps
  cases l with
  | none => rfl
  | some l =>
    obtain ⟨hl, -⟩ := List.forall_mem_append.1 (List.forall_mem_cons.1 h).2
    have hparam := CommaList.forall_mem_leaves hl
    simp only [Params.map, Params.trees, Option.map_some, Option.elim_some, CommaList.toList_map,
      List.map_map]
    exact List.map_congr_left fun p hp => Param.tree_map (hparam p hp)

theorem Expr.tree_map {e : Expr Token} (h : ∀ l ∈ e.leaves, Relabels φ f g l) :
    (e.map φ).tree = e.tree.mapSpans f g := by
  induction e using Expr.induction with
  | name t => exact congrArg Expression.identifier (nameTree_map (h _ List.mem_cons_self))
  | number t =>
    have ht := h _ List.mem_cons_self
    simp only [map, tree, Expression.mapSpans, Token.span, span_relabelled ht ht, ht.text rfl]
  | string t =>
    have ht := h _ List.mem_cons_self
    simp only [map, tree, Expression.mapSpans, Token.span, span_relabelled ht ht, ht.text rfl]
  | call t o as c ih =>
    simp only [leaves, List.forall_mem_cons, List.forall_mem_append] at h
    obtain ⟨ht, -, has, hc, -⟩ := h
    rw [leavesAll_eq] at has
    have hargs := CommaList.forall_mem_leaves has
    have htrees : treeAll (mapAll φ as) = Expression.mapSpansAll f g (treeAll as) := by
      rw [mapAll_eq, treeAll_eq, treeAll_eq, Expression.mapSpansAll_eq, CommaList.toList_map,
        List.map_map, List.map_map]
      exact List.map_congr_left fun e he => ih e he (hargs e he)
    simp only [map, tree, Expression.mapSpans, span_relabelled ht hc, nameTree_map ht, htrees]

/-- **A tree depends on the labels of its derivation through places and a few texts only.** -/
theorem Stmt.tree_map {s : Stmt Token} (h : ∀ l ∈ s.leaves, Relabels φ f g l) :
    (s.map φ).tree = s.tree.mapSpans f g := by
  induction s using Stmt.induction with
  | declaration d t n ps ty c =>
    simp only [leaves, TypeMark.leaves, List.forall_mem_cons, List.forall_mem_append] at h
    obtain ⟨hd, -, hn, ⟨hps, -, hty, -⟩, -⟩ := h
    simp only [map, tree, Statement.mapSpans, nameTree_map hn, Params.trees_map hps, TypeMark.map,
      span_relabelled hd hty, hty.text rfl]
  | definition t n ps ty o body c ih =>
    simp only [leaves, List.forall_mem_cons, List.forall_mem_append] at h
    obtain ⟨ht, hn, ⟨hps, hty⟩, ho, hbody, hc, -⟩ := h
    rw [leavesAll_eq] at hbody
    have hstmts : treeAll (mapAll φ body) = Statement.mapSpansAll f g (treeAll body) := by
      rw [mapAll_eq, treeAll_eq, treeAll_eq, Statement.mapSpansAll_eq, List.map_map, List.map_map]
      exact List.map_congr_left fun s hs => ih s hs
        fun l hl => hbody l (List.mem_flatMap_of_mem hs hl)
    simp only [map, tree, Statement.mapSpans, nameTree_map hn, Params.trees_map hps,
      typeText_map hty, span_relabelled ht hc, span_relabelled ho hc, hstmts]
  | constant k id a e c =>
    simp only [leaves, List.forall_mem_cons, List.forall_mem_append] at h
    obtain ⟨hk, hid, -, he, -⟩ := h
    simp only [map, tree, Statement.mapSpans, Param.tree_map hid, Expr.tree_map he,
      Expression.span_mapSpans, hk.start, Span.map]
  | return_ k e c =>
    simp only [leaves, List.forall_mem_cons, List.forall_mem_append] at h
    obtain ⟨hk, he, -⟩ := h
    cases e with
    | none => exact congrArg (Statement.return · none) (span_relabelled hk hk)
    | some e =>
      simp only [map, tree, Statement.mapSpans, Option.map_some, Option.elim_some, Expr.tree_map he,
        Expression.span_mapSpans, hk.start, Span.map]
  | expression e c =>
    exact congrArg Statement.expression (Expr.tree_map (List.forall_mem_append.1 h).1)

theorem Stmt.treeAll_map {body : List (Stmt Token)}
    (h : ∀ l ∈ Stmt.leavesAll body, Relabels φ f g l) :
    Stmt.treeAll (Stmt.mapAll φ body) = (Stmt.treeAll body).map (Statement.mapSpans f g) := by
  rw [leavesAll_eq] at h
  rw [mapAll_eq, treeAll_eq, treeAll_eq, List.map_map, List.map_map]
  exact List.map_congr_left fun s hs => Stmt.tree_map
    fun l hl => h l (List.mem_flatMap_of_mem hs hl)

end Grammar

end Scriptlet
