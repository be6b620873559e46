import Scriptlet.Proofs.Parse
import Scriptlet.Proofs.Scan

/-!
# Well-formed trees

What a tree has to be like to have been read from a text: its names are names, its numbers are
digits and have their value, its strings are quoted, its calls have arguments, and types stand only
where the grammar has them. Every tree that the parser returns is such a tree, since the scanner
makes a token only of a lexeme of its kind (`lexeme_of_mem_tokenize`).
-/

namespace Scriptlet

open Grammar

/-- A name without a type. -/
structure Identifier.Plain (id : Identifier) : Prop where
  name : IsName id.name
  typeName : id.typeName = none

/-- A name with a type or without. -/
structure Identifier.Typed (id : Identifier) : Prop where
  name : IsName id.name
  typeName : ∀ t ∈ id.typeName, IsName t

/-- An expression that a text may have. -/
inductive Expression.WellFormed : Expression → Prop where
  /-- A name stands without a type. -/
  | identifier {id : Identifier} : id.Plain → WellFormed (.identifier id)
  /-- A number has the value of its digits. -/
  | number {span : Span} {raw : Text} : IsDigits raw →
      WellFormed (.number span (Binary64.ofDigits raw) raw)
  /-- A string is its value between two quotes of a kind that the value does not contain. -/
  | string {span : Span} {value raw : Text} :
      IsQuoted value raw → WellFormed (.string span value raw)
  /-- A call has at least one argument. -/
  | call {span : Span} {callee : Identifier} {args : List Expression} : callee.Plain → args ≠ [] →
      (∀ e ∈ args, WellFormed e) → WellFormed (.call span callee args)

/-- A statement that a text may have. A block does not stand by itself. -/
inductive Statement.WellFormed : Statement → Prop where
  /-- A function without a body has a type. -/
  | declaration {span : Span} {id : Identifier} {params : List Identifier} {t : Text} : id.Plain →
      (∀ p ∈ params, p.Typed) → IsName t → WellFormed (.declaration span id params (some t))
  /-- A function with a body has a type or not. -/
  | definition {span bodySpan : Span} {id : Identifier} {params : List Identifier}
      {returnType : Option Text} {body : List Statement} : id.Plain → (∀ p ∈ params, p.Typed) →
      (∀ t ∈ returnType, IsName t) → (∀ s ∈ body, WellFormed s) →
      WellFormed (.definition span id params returnType bodySpan body)
  /-- A constant has a type or not. -/
  | constant {span : Span} {id : Identifier} {value : Expression} : id.Typed → value.WellFormed →
      WellFormed (.constant span id value)
  /-- The end of a function has a value or not. -/
  | return {span : Span} {argument : Option Expression} : (∀ e ∈ argument, e.WellFormed) →
      WellFormed (.return span argument)
  /-- An expression. -/
  | expression {e : Expression} : e.WellFormed → WellFormed (.expression e)

/-- A program that a text may have. -/
def Program.WellFormed (p : Program) : Prop := ∀ s ∈ p.body, s.WellFormed

/-! ### Trees of lexemes -/

/-- Each label is spelt with a lexeme of the kind that its place has. -/
def Lexical (ls : List (Kind × Token)) : Prop := ∀ l ∈ ls, Lexeme l.1 l.2.text

@[simp] theorem lexical_cons {k : Kind} {t : Token} {ls : List (Kind × Token)} :
    Lexical ((k, t) :: ls) ↔ Lexeme k t.text ∧ Lexical ls := List.forall_mem_cons

@[simp] theorem lexical_append {ls ls' : List (Kind × Token)} :
    Lexical (ls ++ ls') ↔ Lexical ls ∧ Lexical ls' := List.forall_mem_append

namespace Grammar

theorem nameTree_plain {t : Token} (h : IsName t.text) : (nameTree t).Plain := ⟨h, rfl⟩

theorem isName_of_typeLeaves {ty : Option (TypeMark Token)} (h : Lexical (typeLeaves ty)) :
    ∀ t ∈ ty.map fun t => t.name.text, IsName t := by
  cases ty with
  | none => simp
  | some ty =>
    rintro _ ⟨⟩
    exact h (.identifier, ty.name) (by simp [typeLeaves, TypeMark.leaves])

theorem Param.tree_typed {p : Param Token} (h : Lexical p.leaves) : p.tree.Typed := by
  obtain ⟨hn, ht⟩ := lexical_cons.1 h
  exact ⟨hn, isName_of_typeLeaves ht⟩

theorem Params.trees_typed {ps : Params Token} (h : Lexical ps.leaves) :
    ∀ p ∈ ps.trees, p.Typed := by
  obtain ⟨o, l, c⟩ := ps
  cases l with
  | none => simp [Params.trees]
  | some l =>
    obtain ⟨hl, -⟩ := lexical_append.1 (lexical_cons.1 h).2
    simp only [Params.trees, Option.elim_some, List.mem_map]
    rintro _ ⟨p, hp, rfl⟩
    exact Param.tree_typed (CommaList.forall_mem_leaves hl p hp)

theorem Expr.tree_wellFormed {e : Expr Token} (h : Lexical e.leaves) : e.tree.WellFormed := by
  induction e using Expr.induction with
  | name n => exact .identifier (nameTree_plain (lexical_cons.1 h).1)
  | number n => exact .number (lexical_cons.1 h).1
  | string s =>
    obtain ⟨v, hv⟩ := (lexical_cons.1 h).1
    have hvalue : (s.text.drop 1).dropLast = v := by
      obtain ⟨q, -, -, e⟩ := hv
      simp [e]
    exact .string (hvalue ▸ hv)
  | call f o as c ih =>
    obtain ⟨hf, hargs⟩ := lexical_cons.1 h
    obtain ⟨has, -⟩ := lexical_append.1 (lexical_cons.1 hargs).2
    rw [Expr.leavesAll_eq] at has
    rw [Expr.tree, Expr.treeAll_eq]
    refine .call (nameTree_plain hf) (mt List.map_eq_nil_iff.1 as.toList_ne_nil) ?_
    simp only [List.mem_map]
    rintro _ ⟨e, he, rfl⟩
    exact ih e he (CommaList.forall_mem_leaves has e he)

theorem Stmt.tree_wellFormed {s : Stmt Token} (h : Lexical s.leaves) : s.tree.WellFormed := by
  induction s using Stmt.induction with
  | declaration d f n ps t c =>
    simp only [leaves, lexical_cons, lexical_append] at h
    obtain ⟨-, -, hn, ⟨hps, ht⟩, -⟩ := h
    exact .declaration (nameTree_plain hn) (Params.trees_typed hps)
      (isName_of_typeLeaves (show Lexical (typeLeaves (some t)) from ht) _ rfl)
  | definition f n ps t o body c ih =>
    simp only [leaves, lexical_cons, lexical_append] at h
    obtain ⟨-, hn, ⟨hps, ht⟩, -, hbody, -⟩ := h
    rw [tree, treeAll_eq]
    refine .definition (nameTree_plain hn) (Params.trees_typed hps) (isName_of_typeLeaves ht) ?_
    simp only [List.mem_map]
    rintro _ ⟨s, hs, rfl⟩
    rw [leavesAll_eq] at hbody
    exact ih s hs fun l hl => hbody l (List.mem_flatMap_of_mem hs hl)
  | constant k id a e c =>
    simp only [leaves, lexical_cons, lexical_append] at h
    obtain ⟨-, hid, -, he, -⟩ := h
    exact .constant (Param.tree_typed hid) (Expr.tree_wellFormed he)
  | return_ k e c =>
    simp only [leaves, lexical_cons, lexical_append] at h
    obtain ⟨-, he, -⟩ := h
    refine .return ?_
    cases e with
    | none => exact fun e he => absurd he (Option.not_mem_none e)
    | some e =>
      rintro _ ⟨⟩
      exact Expr.tree_wellFormed he
  | expression e c => exact .expression (Expr.tree_wellFormed (lexical_append.1 h).1)

end Grammar

/-! ### Trees of texts -/

/-- The tokens of a text are lexemes of their kinds. -/
theorem lexeme_of_mem_tokenize {src : Text} {t : Token} (h : t ∈ (tokenize src).tokens) :
    Lexeme t.kind t.text := (standsIn_of_mem_tokenize h).lexeme

/-- **Every tree that the parser returns is well formed**, and whatever is cut off a string token at
both ends is there. -/
theorem parse_wellFormed (maxDepth : Int) (src : Text) :
    (∀ p, parse maxDepth src = .ok p → p.WellFormed) ∧
      ∀ t ∈ (tokenize src).tokens, t.kind = .string → 2 ≤ t.text.length := by
  constructor
  · intro p hp
    obtain ⟨-, d, hd, -, rfl⟩ := parse_eq_ok_iff.1 hp
    rw [Program.WellFormed, Stmt.treeAll_eq]
    simp only [List.mem_map]
    rintro _ ⟨s, hs, rfl⟩
    refine Stmt.tree_wellFormed fun l hl => ?_
    have hmem : l ∈ (tokenize src).tokens.map fun t => (t.kind, t) := by
      rw [← hd, Stmt.leavesAll_eq]
      exact List.mem_flatMap_of_mem hs hl
    obtain ⟨t, ht, rfl⟩ := List.mem_map.1 hmem
    exact lexeme_of_mem_tokenize ht
  · intro t ht hk
    have hl := lexeme_of_mem_tokenize ht
    rw [hk] at hl
    obtain ⟨v, q, -, -, e⟩ := hl
    simp [e]

theorem parse_wellFormed_nested : ∃ p, parse 3 (utf8
    "declare function f(a: T, b): U;\nfunction g() \x7b return f('it', h(\"\"), 7); \x7d") = .ok p ∧
      p.WellFormed := by
  have hok : ∀ x : Except Failure Program, x.isOk = true → ∃ p, x = .ok p
    | .ok p, _ => ⟨p, rfl⟩
  exact (hok _ (by decide +kernel)).imp fun p hp => ⟨hp, (parse_wellFormed _ _).1 p hp⟩

end Scriptlet
