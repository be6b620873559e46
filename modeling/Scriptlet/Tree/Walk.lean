import Scriptlet.Tree

/-!
# Walking through trees

The nodes below a node, and the walk through a tree that visits a node before the nodes below it
and may be told not to go below some.
-/

namespace Scriptlet

/-- A name as a statement of its own. -/
def Identifier.statement (id : Identifier) : Statement := .expression (.identifier id)

/-- The nodes directly below a statement, in the order of the source. -/
def Statement.children : Statement → List Statement
  | .declaration _ id params _ => id.statement :: params.map Identifier.statement
  | .definition _ id params _ bodySpan body =>
    id.statement :: params.map Identifier.statement ++ [.block bodySpan body]
  | .constant _ id value => [id.statement, .expression value]
  | .return _ none => []
  | .return _ (some e) => [.expression e]
  | .expression (.call _ callee arguments) => callee.statement :: arguments.map .expression
  | .expression _ => []
  | .block _ body => body

/-- The nodes directly below a node. -/
def Node.children : Node → List Statement
  | program p => p.body
  | statement s => s.children

/-- A node below a statement is smaller. -/
theorem Statement.sizeOf_lt_of_mem_children {s c : Statement} (h : c ∈ s.children) :
    sizeOf c < sizeOf s := by
  cases s with
  | declaration span id params returnType =>
    simp only [children, List.mem_cons, List.mem_map, Identifier.statement] at h
    rcases h with rfl | ⟨p, hp, rfl⟩
    · have : 0 < sizeOf params := by cases params <;> simp +arith
      cases span; simp +arith; omega
    · have := List.sizeOf_lt_of_mem hp
      cases span; simp +arith; omega
  | definition span id params returnType bodySpan body =>
    simp only [children, List.cons_append, List.mem_cons, List.mem_append, List.mem_map,
      Identifier.statement, List.not_mem_nil, or_false] at h
    rcases h with rfl | ⟨p, hp, rfl⟩ | rfl
    · have : 0 < sizeOf params := by cases params <;> simp +arith
      cases span; simp +arith; omega
    · have := List.sizeOf_lt_of_mem hp
      cases span; simp +arith; omega
    · cases span; simp +arith
  | constant span id value =>
    simp only [children, List.mem_cons, List.not_mem_nil, or_false, Identifier.statement] at h
    rcases h with rfl | rfl
    · have : 0 < sizeOf value := by cases value <;> simp +arith
      cases span; simp +arith; omega
    · cases span; simp +arith
  | «return» span argument =>
    cases argument with
    | none => simp [children] at h
    | some e =>
      simp only [children, List.mem_cons, List.not_mem_nil, or_false] at h
      subst h
      cases span; simp +arith
  | expression e =>
    cases e with
    | call span callee arguments =>
      simp only [children, List.mem_cons, List.mem_map, Identifier.statement] at h
      rcases h with rfl | ⟨a, ha, rfl⟩
      · have : 0 < sizeOf arguments := by cases arguments <;> simp +arith
        cases span; simp +arith
      · have := List.sizeOf_lt_of_mem ha
        cases span; simp +arith; omega
    | _ => simp [children] at h
  | block span body =>
    have := List.sizeOf_lt_of_mem (show c ∈ body from h)
    cases span; simp +arith; omega

/-- The statement and what is below it: a node stands before the nodes below it, and below a node
for which `descend` is false nothing is visited. -/
def Statement.visit (descend : Statement → Bool) (s : Statement) : List Statement :=
  s :: if descend s then s.children.attach.flatMap fun ⟨c, _⟩ => c.visit descend else []
termination_by sizeOf s
decreasing_by exact Statement.sizeOf_lt_of_mem_children ‹_›

/-- The nodes that a walk through a program visits, if it does not go below nodes whose type is in
`skipped`. -/
def Program.visit (skipped : List Text) (p : Program) : List Node :=
  .program p ::
    if skipped.contains (Node.program p).typeName then []
    else (p.body.flatMap (Statement.visit fun s => !skipped.contains s.typeName)).map .statement

end Scriptlet
