import Scriptlet.Proofs.Spans

/-!
# Walks that skip

A walk through a tree that skips nothing visits every node once: a node before those below it, and
what is below an earlier child before what is below a later one. A walk that does not go below some
nodes visits the same nodes in the same order, without those that lie below one of these
(`Node.walk_eq_filter`). Both hang on the spans, by which a node lies below one child of a node at
most (`Node.NestsAll.child_unique`). That a walk misses no node hangs on the lists of children; they
are compared with the fields of the nodes (`Node.mem_children_iff`).
-/

namespace Scriptlet

/-- Of two elements of a list, one stands before the other. -/
theorem pair_sublist_or {α : Type} {l : List α} {a b : α} (ha : a ∈ l) (hb : b ∈ l) (hne : a ≠ b) :
    [a, b].Sublist l ∨ [b, a].Sublist l := by
  obtain ⟨x, y, rfl⟩ := List.append_of_mem ha
  rcases List.mem_append.1 hb with hb | hb
  · exact .inr ((List.singleton_sublist.2 hb).append (List.singleton_sublist.2 List.mem_cons_self))
  · have hy : b ∈ y := List.mem_of_ne_of_mem hne.symm hb
    exact .inl ((List.nil_sublist x).append ((List.singleton_sublist.2 hy).cons_cons a))

/-! ### The nodes in a node -/

/-- The statement, or the expression as one, stands in a field of the node. -/
inductive Node.Holds : Node → Statement → Prop where
  /-- A statement of a program. -/
  | programBody {p : Program} {s : Statement} : s ∈ p.body → Holds (.program p) s
  /-- The name of a declared function. -/
  | declarationName {span : Span} {id : Identifier} {params : List Identifier}
      {type : Option Text} :
      Holds (.statement (.declaration span id params type)) (.expression (.identifier id))
  /-- A parameter of a declared function. -/
  | declarationParam {span : Span} {id x : Identifier} {params : List Identifier}
      {type : Option Text} :
      x ∈ params → Holds (.statement (.declaration span id params type))
        (.expression (.identifier x))
  /-- The name of a defined function. -/
  | definitionName {span bodySpan : Span} {id : Identifier} {params : List Identifier}
      {type : Option Text} {body : List Statement} :
      Holds (.statement (.definition span id params type bodySpan body))
        (.expression (.identifier id))
  /-- A parameter of a defined function. -/
  | definitionParam {span bodySpan : Span} {id x : Identifier} {params : List Identifier}
      {type : Option Text} {body : List Statement} : x ∈ params →
      Holds (.statement (.definition span id params type bodySpan body))
        (.expression (.identifier x))
  /-- The body of a defined function. -/
  | definitionBody {span bodySpan : Span} {id : Identifier} {params : List Identifier}
      {type : Option Text} {body : List Statement} :
      Holds (.statement (.definition span id params type bodySpan body)) (.block bodySpan body)
  /-- The name of a constant. -/
  | constantName {span : Span} {id : Identifier} {value : Expression} :
      Holds (.statement (.constant span id value)) (.expression (.identifier id))
  /-- The value of a constant. -/
  | constantValue {span : Span} {id : Identifier} {value : Expression} :
      Holds (.statement (.constant span id value)) (.expression value)
  /-- The value of a return. -/
  | returnValue {span : Span} {e : Expression} :
      Holds (.statement (.return span (some e))) (.expression e)
  /-- The name of a called function. -/
  | callee {span : Span} {id : Identifier} {arguments : List Expression} :
      Holds (.statement (.expression (.call span id arguments))) (.expression (.identifier id))
  /-- An argument of a call. -/
  | argument {span : Span} {id : Identifier} {arguments : List Expression} {e : Expression} :
      e ∈ arguments → Holds (.statement (.expression (.call span id arguments))) (.expression e)
  /-- A statement of a block. -/
  | blockBody {span : Span} {body : List Statement} {s : Statement} :
      s ∈ body → Holds (.statement (.block span body)) s

namespace Node

theorem Holds.mem_children {n : Node} {c : Statement} (h : n.Holds c) : c ∈ n.children := by
  cases h with
  | programBody h | blockBody h => exact h
  | declarationName | definitionName | constantName | callee | returnValue =>
      exact List.mem_cons_self
  | declarationParam h => exact List.mem_cons_of_mem _ (List.mem_map_of_mem h)
  | definitionParam h =>
    exact List.mem_cons_of_mem _ (List.mem_append_left _ (List.mem_map_of_mem h))
  | definitionBody =>
    exact List.mem_cons_of_mem _ (List.mem_append_right _ (List.mem_singleton_self _))
  | constantValue => exact List.mem_cons_of_mem _ (List.mem_singleton_self _)
  | argument h => exact List.mem_cons_of_mem _ (List.mem_map_of_mem h)

theorem holds_of_mem_children {n : Node} {c : Statement} (h : c ∈ n.children) : n.Holds c := by
  cases n with
  | program p => exact .programBody h
  | statement s =>
    rw [children] at h
    cases s with
    | declaration span id params type =>
      rcases List.mem_cons.1 h with rfl | h
      · exact .declarationName
      · obtain ⟨x, hx, rfl⟩ := List.mem_map.1 h
        exact .declarationParam hx
    | definition span id params type bodySpan body =>
      rcases List.mem_append.1 h with h | h
      · rcases List.mem_cons.1 h with rfl | h
        · exact .definitionName
        · obtain ⟨x, hx, rfl⟩ := List.mem_map.1 h
          exact .definitionParam hx
      · rw [List.mem_singleton.1 h]
        exact .definitionBody
    | constant span id value =>
      rcases List.mem_cons.1 h with rfl | h
      · exact .constantName
      · rw [List.mem_singleton.1 h]
        exact .constantValue
    | «return» span e =>
      cases e with
      | none => cases h
      | some e =>
        rw [List.mem_singleton.1 h]
        exact .returnValue
    | expression e =>
      cases e with
      | call span id arguments =>
        rcases List.mem_cons.1 h with rfl | h
        · exact .callee
        · obtain ⟨e, he, rfl⟩ := List.mem_map.1 h
          exact .argument he
      | identifier | number | string => cases h
    | block span body => exact .blockBody h

/-- **The nodes directly below a node are those in its fields.** -/
theorem mem_children_iff {n : Node} {c : Statement} : c ∈ n.children ↔ n.Holds c :=
  ⟨holds_of_mem_children, Holds.mem_children⟩

/-! ### One way to each node -/

variable {n m : Node} {c d : Statement}

/-- **A node lies within one child of a node only.** -/
theorem NestsAll.child_unique (hn : n.NestsAll) (hc : c ∈ n.children) (hd : d ∈ n.children)
    (h : m.Within (.statement c)) (h' : m.Within (.statement d)) : c = d := by
  by_contra hne
  have := hn.inside_child hc h
  have := hn.inside_child hd h'
  rcases pair_sublist_or hc hd hne with hcd | hdc
  · have := List.pairwise_iff_forall_sublist.1 hn.pairwise_children hcd
    omega
  · have := List.pairwise_iff_forall_sublist.1 hn.pairwise_children hdc
    omega

/-! ### Walking -/

/-- The nodes that a walk from a node visits, if it goes below those for which `descend` is true. -/
def walk (descend : Node → Bool) (n : Node) : List Node :=
  n :: if descend n then
    (n.children.flatMap (Statement.visit fun s => descend (.statement s))).map .statement
    else []

theorem walk_statement (descend : Node → Bool) (s : Statement) :
    (statement s).walk descend = (s.visit fun s => descend (.statement s)).map .statement := by
  rw [walk, Statement.visit_eq, List.map_cons]
  split <;> rfl

theorem walk_eq (descend : Node → Bool) (n : Node) :
    n.walk descend = n :: if descend n then n.children.flatMap fun c => (statement c).walk descend
      else [] := by
  simp only [walk_statement]
  rw [walk, List.map_flatMap]

theorem walk_program (skipped : List Text) (p : Program) :
    (program p).walk (fun n => !skipped.contains n.typeName) = p.visit skipped := by
  rw [walk, Program.visit]
  cases skipped.contains (program p).typeName <;> rfl

theorem within_of_mem_walk {descend : Node → Bool} (h : m ∈ n.walk descend) : m.Within n := by
  rw [walk] at h
  rcases List.mem_cons.1 h with rfl | h
  · exact .refl
  · split at h
    · obtain ⟨s, hs, rfl⟩ := List.mem_map.1 h
      exact (below_of_mem_flatMap_visit hs).to_reflTransGen
    · cases h

/-- Every node that lies above the node `m` and within `n` is one that a walk goes below. -/
def Open (descend : Node → Bool) (n m : Node) : Prop :=
  ∀ k, k.Within n → m.Below k → descend k = true

noncomputable instance (descend : Node → Bool) (n : Node) : DecidablePred (Open descend n) :=
  Classical.decPred _

theorem open_self (descend : Node → Bool) (n : Node) : Open descend n n := by
  intro k hk hn
  rcases within_or_below hk with rfl | hk
  · exact absurd (sizeOf_lt_of_below hn) (Nat.lt_irrefl _)
  · exact absurd (sizeOf_lt_of_below hn) (Nat.lt_asymm (sizeOf_lt_of_below hk))

/-- From a node that a walk goes below, it gets to what it gets to from the children. -/
theorem open_child_iff (hn : n.NestsAll) {descend : Node → Bool} (hopen : descend n = true)
    (hc : c ∈ n.children) (hm : m.Within (.statement c)) :
    Open descend (.statement c) m ↔ Open descend n m := by
  constructor
  · intro h k hk hmk
    rcases Relation.ReflTransGen.cases_head hk with rfl | ⟨_, ⟨d, hd, rfl⟩, hk⟩
    · exact hopen
    · -- `m` is within the child that `k` is within, and so within `c` only
      obtain rfl := hn.child_unique hc hd hm (hk.trans hmk.to_reflTransGen)
      exact h k hk hmk
  · intro h k hk hmk
    exact h k (.head ⟨c, hc, rfl⟩ hk) hmk

/-- **A walk visits what the walk that skips nothing visits**, without the nodes below one that it
does not go below. -/
theorem walk_eq_filter (hn : n.NestsAll) (descend : Node → Bool) :
    n.walk descend = (n.walk fun _ => true).filter fun m => Open descend n m := by
  induction hsize : sizeOf n using Nat.strong_induction_on generalizing n with
  | _ size ih =>
    rw [walk_eq, walk_eq, if_pos rfl, List.filter_cons_of_pos (by simpa using open_self descend n)]
    congr 1
    split
    · rename_i hd
      rw [List.filter_flatMap]
      refine List.flatMap_congr fun c hc => ?_
      have hlt : sizeOf (statement c) < size := hsize ▸ sizeOf_lt_of_isParent ⟨c, hc, rfl⟩
      rw [ih _ hlt (hn.child hc) rfl]
      refine List.filter_congr fun m hm => ?_
      exact decide_eq_decide.2 (open_child_iff hn hd hc (within_of_mem_walk hm))
    · rename_i hd
      refine (List.filter_eq_nil_iff.2 fun m hm => ?_).symm
      obtain ⟨c, hc, hm⟩ := List.mem_flatMap.1 hm
      rw [decide_eq_true_eq]
      intro hopen
      exact hd (hopen n .refl (.head' ⟨c, hc, rfl⟩ (within_of_mem_walk hm)))

end Node

/-! ### Programs -/

namespace Program

variable {p : Program} {n m k : Node} {c d : Statement}

theorem nodup_visit (hp : (Node.program p).NestsAll) (skipped : List Text) :
    (p.visit skipped).Nodup := by
  rw [visit]
  refine List.nodup_cons.2 ⟨by split <;> simp, ?_⟩
  split
  · exact List.nodup_nil
  · have hpairs := pairwise_flatMap_visit hp fun c hc =>
      Scriptlet.pairwise_visit (hp.child hc) fun s => !skipped.contains s.typeName
    refine List.pairwise_map.2 (hpairs.imp_of_mem fun {s t} hs _ hprec heq => ?_)
    obtain ⟨-, hlt, -⟩ := Node.inside_of_below hp (below_of_mem_flatMap_visit hs)
    rw [← heq] at hprec
    rcases hprec with hbelow | hle
    · exact absurd (Node.sizeOf_lt_of_below hbelow) (Nat.lt_irrefl _)
    · omega

/-- Of two nodes, the walk that skips nothing visits that one first which may come before the
other. -/
theorem pair_sublist_visit (hp : (Node.program p).NestsAll) (hn : p.HasNode n) (hm : p.HasNode m)
    (hne : n ≠ m) (h : ¬ m.Precedes n) : [n, m].Sublist (p.visit []) := by
  rcases pair_sublist_or (mem_visit_iff.2 hn) (mem_visit_iff.2 hm) hne with hnm | hmn
  · exact hnm
  · exact absurd (List.pairwise_iff_forall_sublist.1 (pairwise_visit hp []) hmn) h

/-- A node is visited before those below it. -/
theorem pair_sublist_of_below (hp : (Node.program p).NestsAll) (hn : p.HasNode n) (h : m.Below n) :
    [n, m].Sublist (p.visit []) := by
  have hlt := Node.sizeOf_lt_of_below h
  have hinside := Node.inside_of_below (hp.within hn) h
  refine pair_sublist_visit hp hn (hn.trans h.to_reflTransGen) ?_ ?_
  · rintro rfl
    exact absurd hlt (Nat.lt_irrefl _)
  · rintro (hbelow | hle)
    · exact absurd hlt (Nat.lt_asymm (Node.sizeOf_lt_of_below hbelow))
    · omega

/-- What is within a child of a node is visited before what is within a later child. -/
theorem pair_sublist_of_siblings (hp : (Node.program p).NestsAll) (hn : p.HasNode n)
    (hcd : [c, d].Sublist n.children) (hk : k.Within (.statement c))
    (hm : m.Within (.statement d)) : [k, m].Sublist (p.visit []) := by
  have hnests := hp.within hn
  have hc : c ∈ n.children := hcd.subset List.mem_cons_self
  have hd : d ∈ n.children := hcd.subset (List.mem_cons_of_mem _ List.mem_cons_self)
  have hkc := hnests.inside_child hc hk
  have hmd := hnests.inside_child hd hm
  have hle := List.pairwise_iff_forall_sublist.1 hnests.pairwise_children hcd
  have hnode {s : Statement} {l : Node} (hs : s ∈ n.children) (hl : l.Within (.statement s)) :
      p.HasNode l :=
    hn.trans (.head ⟨s, hs, rfl⟩ hl)
  refine pair_sublist_visit hp (hnode hc hk) (hnode hd hm) ?_ ?_
  · rintro rfl
    omega
  · rintro (hbelow | hle)
    · have := Node.inside_of_below (hp.within (hnode hd hm)) hbelow
      omega
    · omega

/-- A node of the program that lies above the given one has a type in `skipped`. -/
def Hides (p : Program) (skipped : List Text) (n : Node) : Prop :=
  ∃ m, p.HasNode m ∧ n.Below m ∧ m.typeName ∈ skipped

noncomputable instance (p : Program) (skipped : List Text) : DecidablePred (p.Hides skipped) :=
  Classical.decPred _

theorem open_iff (p : Program) (skipped : List Text) (n : Node) :
    Node.Open (fun m => !skipped.contains m.typeName) (.program p) n ↔ ¬ p.Hides skipped n := by
  simp only [Node.Open, Hides, Bool.not_eq_true', List.contains_eq_mem, decide_eq_false_iff_not,
    not_exists, not_and]
  rfl

/-- A walk through a program visits what the walk that skips nothing visits, without what lies below
a node with a type in `skipped`. -/
theorem visit_eq_filter (hp : (Node.program p).NestsAll) (skipped : List Text) :
    p.visit skipped = (p.visit []).filter fun n => ¬ p.Hides skipped n := by
  rw [← Node.walk_program, Node.walk_eq_filter hp, ← Node.walk_program]
  refine List.filter_congr fun n _ => ?_
  exact decide_eq_decide.2 (p.open_iff skipped n)

end Program

/-- **Skipping removes exactly the subtrees below skipped nodes.** In the program of a text, the
children of a node are the nodes in its fields, each once and in the order of the source. The walk
that skips nothing visits every node once, a node before those below it, and what is within a child
before what is within a later one. A walk that skips visits the same nodes in the same order, but
for those that lie below a node with a skipped type. -/
theorem visit_skips_subtrees {maxDepth : Int} {src : Text} {p : Program}
    (h : parse maxDepth src = .ok p) :
    (∀ n, p.HasNode n → (∀ c, c ∈ n.children ↔ n.Holds c) ∧ n.children.Nodup ∧
      n.children.Pairwise fun c d => c.span.stop ≤ d.span.start) ∧
    ((p.visit []).Nodup ∧ (∀ n, n ∈ p.visit [] ↔ p.HasNode n) ∧
      (∀ n m, p.HasNode n → m.Below n → [n, m].Sublist (p.visit [])) ∧
      ∀ n c d, p.HasNode n → [c, d].Sublist n.children →
        ∀ k m, k.Within (.statement c) → m.Within (.statement d) → [k, m].Sublist (p.visit [])) ∧
    ∀ skipped, p.visit skipped = (p.visit []).filter fun n => ¬ p.Hides skipped n := by
  have hp : (Node.program p).NestsAll := fun n hn => nests_of_parse h hn
  refine ⟨fun n hn => ⟨fun c => Node.mem_children_iff, ?_, (hp.within hn).pairwise_children⟩,
    ⟨Program.nodup_visit hp [], fun n => Program.mem_visit_iff, ?_, ?_⟩, Program.visit_eq_filter hp⟩
  · refine (hp.within hn).pairwise_children.imp_of_mem fun {c d} hc _ hle heq => ?_
    have := (hp.within hn).inside_child hc .refl
    rw [← heq] at hle
    exact absurd this.2.1 (Int.not_lt.2 hle)
  · intro n m hn hm
    exact Program.pair_sublist_of_below hp hn hm
  · intro n c d hn hcd k m hk hm
    exact Program.pair_sublist_of_siblings hp hn hcd hk hm

/-- A function that is defined and called, with calls in its body. -/
def calledProgram : Text := utf8 "function f(a) \x7b return g(1, h(a)); \x7d f('x');"

theorem visit_skips_subtrees_calls : ∃ p, parse 3 calledProgram = .ok p ∧ (p.visit []).Nodup ∧
    (p.visit []).length = 15 ∧
      (p.visit [utf8 "CallExpression", utf8 "ReturnStatement"]).length = 7 ∧
    p.visit [utf8 "CallExpression", utf8 "ReturnStatement"] =
      (p.visit []).filter fun n => ¬ p.Hides [utf8 "CallExpression", utf8 "ReturnStatement"] n := by
  obtain ⟨p, hp⟩ : ∃ p, parse 3 calledProgram = .ok p := exists_ok_of_map (by decide +kernel)
  have hall : ((parse 3 calledProgram).map fun p => (p.visit []).length) = .ok 15 := by
    decide +kernel
  have hskipped : ((parse 3 calledProgram).map fun p =>
      (p.visit [utf8 "CallExpression", utf8 "ReturnStatement"]).length) = .ok 7 := by decide +kernel
  rw [hp] at hall hskipped
  obtain ⟨-, ⟨hnodup, -⟩, hskip⟩ := visit_skips_subtrees hp
  exact ⟨p, hp, hnodup, Except.ok.inj hall, Except.ok.inj hskipped, hskip _⟩

end Scriptlet
