import Scriptlet.Proofs.Agenda
import Scriptlet.Proofs.Phrase
import Scriptlet.Proofs.Scan

/-!
# Spans nest

In a tree that the parser returns, the nodes below a node stand in its span one after the other. The
tokens of the text do so in the text (`chain_tokens`), and each phrase takes tokens that stand side
by side, so the parts of a phrase do so in the phrase (`Laid.chain`). What holds between a node and
its children then orders the walk through the tree: of two nodes that it visits, the second lies
below the first or starts where the first has ended (`pairwise_visit`).
-/

namespace Scriptlet

open Grammar

/-! ### Chains -/

/-- `Chain lo ss hi`: from the offset `lo` up to `hi` the spans stand one after the other, and none
of them is empty. -/
inductive Chain : Int → List Span → Int → Prop where
  /-- No span. -/
  | nil {lo hi : Int} : lo ≤ hi → Chain lo [] hi
  /-- A span and those behind it. -/
  | cons {lo hi : Int} {s : Span} {ss : List Span} : lo ≤ s.start → s.start < s.stop →
      Chain s.stop ss hi → Chain lo (s :: ss) hi

namespace Chain

variable {lo hi : Int} {ss ss' : List Span} {a b : Span}

theorem le (h : Chain lo ss hi) : lo ≤ hi := by
  induction h with
  | nil h => exact h
  | cons _ _ _ ih => omega

theorem append_iff : Chain lo (ss ++ ss') hi ↔ ∃ mid, Chain lo ss mid ∧ Chain mid ss' hi := by
  constructor
  · intro h
    induction ss generalizing lo with
    | nil => exact ⟨lo, .nil (Int.le_refl lo), h⟩
    | cons s ss ih =>
      cases h with
      | cons hlo hlt h =>
        obtain ⟨mid, hss, hss'⟩ := ih h
        exact ⟨mid, .cons hlo hlt hss, hss'⟩
  · rintro ⟨mid, h, h'⟩
    induction h with
    | nil hle =>
      cases h' with
      | nil hle' => exact .nil (Int.le_trans hle hle')
      | cons hlo hlt h' => exact .cons (Int.le_trans hle hlo) hlt h'
    | cons hlo hlt _ ih => exact .cons hlo hlt (ih h')

theorem bounds (h : Chain lo ss hi) : ∀ s ∈ ss, lo ≤ s.start ∧ s.start < s.stop ∧ s.stop ≤ hi := by
  induction h with
  | nil => exact fun _ hs => absurd hs List.not_mem_nil
  | cons hlo hlt h ih =>
    intro s hs
    rcases List.mem_cons.1 hs with rfl | hs
    · exact ⟨hlo, hlt, h.le⟩
    · have := ih s hs
      omega

theorem pairwise (h : Chain lo ss hi) : ss.Pairwise fun s s' => s.stop ≤ s'.start := by
  induction h with
  | nil => exact .nil
  | cons _ _ h ih => exact .cons (fun s hs => (h.bounds s hs).1) ih

/-- A chain goes from the start of its first span to the end of its last. -/
theorem tighten (h : Chain lo ss hi) (ha : a ∈ ss.head?) (hb : b ∈ ss.getLast?) :
    lo ≤ a.start ∧ b.stop ≤ hi ∧ Chain a.start ss b.stop := by
  obtain ⟨front, rfl⟩ := List.getLast?_eq_some_iff.1 hb
  obtain ⟨mid, hfront, hlast⟩ := append_iff.1 h
  cases hlast with
  | cons hmid hlt hle =>
    have h' : Chain lo (front ++ [b]) b.stop :=
      append_iff.2 ⟨mid, hfront, .cons hmid hlt (.nil (Int.le_refl _))⟩
    refine ⟨(h.bounds a (List.mem_of_mem_head? ha)).1, hle.le, ?_⟩
    generalize front ++ [b] = ss at ha h'
    cases h' with
    | nil => cases ha
    | cons _ hlt h' =>
      cases ha
      exact .cons (Int.le_refl _) hlt h'

end Chain

/-! ### Tokens and phrases -/

/-- The leaves stand one after the other between two offsets. -/
def Spread (lo : Int) (ls : List (Kind × Token)) (hi : Int) : Prop :=
  Chain lo (ls.map fun l => l.2.span) hi

section Spread

variable {lo hi : Int} {ls ls' : List (Kind × Token)} {s : Span}

theorem spread_append : Spread lo (ls ++ ls') hi ↔ ∃ mid, Spread lo ls mid ∧ Spread mid ls' hi := by
  unfold Spread
  rw [List.map_append]
  exact Chain.append_iff

theorem Spread.of_isInfix (h : Spread lo ls hi) (h' : ls' <:+: ls) :
    ∃ lo' hi', Spread lo' ls' hi' := by
  obtain ⟨before, after, rfl⟩ := h'
  obtain ⟨hi', h, -⟩ := spread_append.1 h
  obtain ⟨lo', -, h⟩ := spread_append.1 h
  exact ⟨lo', hi', h⟩

/-- Leaves that stand one after the other do so in the span that covers them. -/
theorem Spread.covers (h : Spread lo ls hi) (hs : Covers ls s) :
    lo ≤ s.start ∧ s.start < s.stop ∧ s.stop ≤ hi ∧ Spread s.start ls s.stop := by
  obtain ⟨a, ha, b, hb, -, rfl⟩ := hs
  have ha' : a.2.span ∈ (ls.map fun l => l.2.span).head? := by
    rw [List.head?_map]
    exact Option.mem_map_of_mem _ ha
  have hb' : b.2.span ∈ (ls.map fun l => l.2.span).getLast? := by
    rw [List.getLast?_map]
    exact Option.mem_map_of_mem _ hb
  obtain ⟨hlo, hhi, htight⟩ := Chain.tighten h ha' hb'
  have hbounds := htight.bounds _ (List.mem_of_mem_head? ha')
  exact ⟨hlo, Int.lt_of_lt_of_le hbounds.2.1 hbounds.2.2, hhi, htight⟩

/-- **Phrases that are laid out among leaves have their nodes one after the other.** -/
theorem Grammar.Phrase.Laid.chain {qs : List Phrase} (h : Phrase.Laid qs ls)
    (hs : Spread lo ls hi) : Chain lo (qs.map fun q => q.tree.span) hi := by
  induction h generalizing lo hi with
  | nil => exact .nil (Chain.le hs)
  | single q =>
    obtain ⟨hlo, hlt, hhi, -⟩ := hs.covers q.covers
    exact .cons hlo hlt (.nil hhi)
  | append _ _ ih ih' =>
    obtain ⟨mid, hs, hs'⟩ := spread_append.1 hs
    rw [List.map_append]
    exact Chain.append_iff.2 ⟨mid, ih hs, ih' hs'⟩

end Spread

theorem Scan.chain {src : Text} {i j : Nat} {ts : List Token} (h : Scan src i ts j) :
    Chain i (ts.map Token.span) j := by
  induction h with
  | gap h => exact .nil (Int.ofNat_le.2 h.1)
  | token h ht _ ih => exact .cons (Int.ofNat_le.2 h.1) (Int.ofNat_lt.2 ht.start_lt) ih

/-- The tokens of a text stand in it one after the other. -/
theorem chain_tokens (src : Text) : Chain 0 ((tokenize src).tokens.map Token.span) src.length := by
  obtain ⟨hscan, -⟩ := scan_readAll src 0 (Nat.zero_le _)
  have hle := Int.ofNat_le.2 hscan.le_length.2
  have hchain := Chain.append_iff.2 ⟨_, hscan.chain, .nil hle⟩
  rwa [List.append_nil] at hchain

theorem spread_tokens (src : Text) :
    Spread 0 ((tokenize src).tokens.map fun t => (t.kind, t)) src.length := by
  unfold Spread
  rw [List.map_map]
  exact chain_tokens src

/-! ### Nodes -/

/-- The nodes directly below the node stand in its span one after the other. -/
def Node.Nests (n : Node) : Prop := Chain n.span.start (n.children.map Statement.span) n.span.stop

/-- The span starts where a token starts and ends where one ends. -/
def Span.OnTokens (ts : List Token) (s : Span) : Prop :=
  (∃ t ∈ ts, s.start = t.start) ∧ ∃ t ∈ ts, s.stop = t.stop

theorem Grammar.Covers.onTokens {ls : List (Kind × Token)} {s : Span} (h : Covers ls s)
    {ts : List Token} (hls : ∀ l ∈ ls, l.2 ∈ ts) : s.OnTokens ts := by
  obtain ⟨a, ha, b, hb, -, rfl⟩ := h
  exact ⟨⟨a.2, hls a (List.mem_of_mem_head? ha), rfl⟩, b.2,
    hls b (List.mem_of_mem_getLast? hb), rfl⟩

section Parse

variable {maxDepth : Int} {src : Text} {p : Program} {n : Node}

/-- In the program of a text, every node nests. -/
theorem nests_of_parse (h : parse maxDepth src = .ok p) (hn : p.HasNode n) : n.Nests := by
  obtain ⟨-, d, hd, -, rfl⟩ := parse_eq_ok_iff.1 h
  have hspread := spread_tokens src
  rw [← hd] at hspread
  unfold Node.Nests
  rcases hn.exists_phrase rfl with rfl | ⟨q, rfl, hcore, -⟩
  · have hbody := (Phrase.laid_body d).chain hspread
    rw [List.map_map] at hbody
    rw [Node.children, Stmt.treeAll_eq, List.map_map]
    exact hbody
  · obtain ⟨lo, hi, hq⟩ := hspread.of_isInfix hcore
    have hparts := q.laid_parts.chain (hq.covers q.covers).2.2.2
    rw [Node.children, Phrase.children_tree, List.map_map]
    exact hparts

/-- In the program of a text, every node but the program itself starts and ends with a token. -/
theorem onTokens_of_parse (h : parse maxDepth src = .ok p) {s : Statement}
    (hs : p.HasNode (.statement s)) : s.span.OnTokens (tokenize src).tokens := by
  obtain ⟨-, d, hd, -, rfl⟩ := parse_eq_ok_iff.1 h
  rcases hs.exists_phrase rfl with hs | ⟨q, hs, hcore, -⟩
  · cases hs
  · cases hs
    refine q.covers.onTokens fun l hl => ?_
    have hmem := hcore.subset hl
    rw [hd] at hmem
    obtain ⟨t, ht, rfl⟩ := List.mem_map.1 hmem
    exact ht

end Parse

/-! ### What lies below a node -/

namespace Node

variable {n m : Node}

theorem sizeOf_lt_of_isParent (h : n.IsParent m) : sizeOf m < sizeOf n := by
  obtain ⟨s, hs, rfl⟩ := h
  cases n with
  | program p =>
    have := List.sizeOf_lt_of_mem (show s ∈ p.body from hs)
    obtain ⟨span, body⟩ := p
    simp only [program.sizeOf_spec, statement.sizeOf_spec, Program.mk.sizeOf_spec] at this ⊢
    omega
  | statement r =>
    have := Statement.sizeOf_lt_of_mem_children hs
    simp only [statement.sizeOf_spec]
    omega

theorem sizeOf_lt_of_below (h : m.Below n) : sizeOf m < sizeOf n := by
  unfold Below at h
  induction h with
  | single h => exact sizeOf_lt_of_isParent h
  | tail _ h ih => exact (sizeOf_lt_of_isParent h).trans ih

/-- The node nests, and so does every node below it. -/
def NestsAll (n : Node) : Prop := ∀ m, Relation.ReflTransGen IsParent n m → m.Nests

theorem NestsAll.child (hn : n.NestsAll) {c : Statement} (hc : c ∈ n.children) :
    (statement c).NestsAll :=
  fun m hm => hn m (.head ⟨c, hc, rfl⟩ hm)

/-- What lies below a node lies in its span, and is not empty. -/
theorem inside_of_below (hn : n.NestsAll) (h : m.Below n) :
    n.span.start ≤ m.span.start ∧ m.span.start < m.span.stop ∧ m.span.stop ≤ n.span.stop := by
  have child {k l : Node} (hk : k.Nests) (h : k.IsParent l) :
      k.span.start ≤ l.span.start ∧ l.span.start < l.span.stop ∧ l.span.stop ≤ k.span.stop := by
    obtain ⟨s, hs, rfl⟩ := h
    exact hk.bounds s.span (List.mem_map_of_mem hs)
  unfold Below at h
  induction h with
  | single h => exact child (hn n .refl) h
  | @tail k l hk h ih =>
    have := child (hn k hk.to_reflTransGen) h
    omega

/-- The node is another one or lies below it. -/
def Within (n m : Node) : Prop := Relation.ReflTransGen IsParent m n

theorem within_or_below (h : m.Within n) : m = n ∨ m.Below n :=
  Relation.reflTransGen_iff_eq_or_transGen.1 h

theorem NestsAll.within (hn : n.NestsAll) (h : m.Within n) : m.NestsAll :=
  fun k hk => hn k (h.trans hk)

/-- What is within a child of a node is not empty and lies in the span of the child. -/
theorem NestsAll.inside_child (hn : n.NestsAll) {c : Statement} (hc : c ∈ n.children)
    (h : m.Within (.statement c)) :
    c.span.start ≤ m.span.start ∧ m.span.start < m.span.stop ∧ m.span.stop ≤ c.span.stop := by
  rcases within_or_below h with rfl | h
  · have := (hn n .refl).bounds c.span (List.mem_map_of_mem hc)
    exact ⟨Int.le_refl _, this.2.1, Int.le_refl _⟩
  · exact inside_of_below (hn.child hc) h

theorem NestsAll.pairwise_children (hn : n.NestsAll) :
    n.children.Pairwise fun c d => c.span.stop ≤ d.span.start :=
  List.pairwise_map.1 (hn n .refl).pairwise

end Node

/-! ### Walking -/

namespace Statement

variable {descend : Statement → Bool} {r s : Statement}

theorem visit_eq (descend : Statement → Bool) (s : Statement) :
    s.visit descend = s :: if descend s then s.children.flatMap (visit descend) else [] := by
  rw [visit]
  simp

/-- A walk from a node visits that node and nodes below it. -/
theorem reach_of_mem_visit (h : s ∈ r.visit descend) :
    Relation.ReflTransGen Node.IsParent (.statement r) (.statement s) := by
  induction hn : sizeOf r using Nat.strong_induction_on generalizing r with
  | _ n ih =>
    rw [visit_eq] at h
    rcases List.mem_cons.1 h with rfl | h
    · exact .refl
    · split at h
      · obtain ⟨c, hc, hs⟩ := List.mem_flatMap.1 h
        exact .head ⟨c, hc, rfl⟩ (ih _ (hn ▸ sizeOf_lt_of_mem_children hc) hs rfl)
      · cases h

/-- A walk that goes below every node visits all nodes. -/
theorem mem_visit_of_reach (h : Relation.ReflTransGen Node.IsParent (.statement r) (.statement s)) :
    s ∈ r.visit fun _ => true := by
  generalize hn : Node.statement r = n at h
  induction h using Relation.ReflTransGen.head_induction_on generalizing r with
  | refl =>
    cases hn
    rw [visit_eq]
    exact List.mem_cons_self
  | head hchild _ ih =>
    obtain ⟨c, hc, rfl⟩ := hchild
    subst hn
    rw [visit_eq]
    exact List.mem_cons_of_mem _ (List.mem_flatMap.2 ⟨c, hc, ih rfl⟩)

end Statement

/-- The walks from the nodes directly below a node visit what lies below it. -/
theorem below_of_mem_flatMap_visit {n : Node} {descend : Statement → Bool} {s : Statement}
    (h : s ∈ n.children.flatMap (Statement.visit descend)) : (Node.statement s).Below n := by
  obtain ⟨c, hc, hs⟩ := List.mem_flatMap.1 h
  exact .head' ⟨c, hc, rfl⟩ (Statement.reach_of_mem_visit hs)

/-- Of two nodes, the second lies below the first, or starts where the first has ended or further
on. -/
def Node.Precedes (n m : Node) : Prop := m.Below n ∨ n.span.stop ≤ m.span.start

/-- The walks from the nodes directly below a node come one after the other. -/
theorem pairwise_flatMap_visit {n : Node} (hn : n.NestsAll) {descend : Statement → Bool}
    (ih : ∀ c ∈ n.children,
      (c.visit descend).Pairwise fun s t => Node.Precedes (.statement s) (.statement t)) :
    (n.children.flatMap (Statement.visit descend)).Pairwise
      fun s t => Node.Precedes (.statement s) (.statement t) := by
  refine List.pairwise_flatMap.2 ⟨ih,
    hn.pairwise_children.imp_of_mem fun {c c'} hc hc' hle s hs t ht => .inr ?_⟩
  -- what a walk visits lies in the span of the node that it starts from
  have hs := hn.inside_child hc (Statement.reach_of_mem_visit hs)
  have ht := hn.inside_child hc' (Statement.reach_of_mem_visit ht)
  omega

/-- **The order of a walk**: of two nodes that are visited, the second lies below the first or
starts where the first has ended. -/
theorem pairwise_visit {r : Statement} (hr : (Node.statement r).NestsAll)
    (descend : Statement → Bool) :
    (r.visit descend).Pairwise fun s t => Node.Precedes (.statement s) (.statement t) := by
  induction hn : sizeOf r using Nat.strong_induction_on generalizing r with
  | _ n ih =>
    rw [Statement.visit_eq]
    split
    · refine .cons (fun s hs => .inl (below_of_mem_flatMap_visit hs))
        (pairwise_flatMap_visit hr fun c hc => ?_)
      exact ih _ (hn ▸ Statement.sizeOf_lt_of_mem_children hc) (hr.child hc) rfl
    · exact List.pairwise_singleton _ _

namespace Program

variable {p : Program} {skipped : List Text} {n : Node}

theorem eq_or_below_of_mem_visit (h : n ∈ p.visit skipped) :
    n = .program p ∨ n.Below (.program p) := by
  unfold visit at h
  rcases List.mem_cons.1 h with rfl | h
  · exact .inl rfl
  · right
    split at h
    · cases h
    · obtain ⟨s, hs, rfl⟩ := List.mem_map.1 h
      exact below_of_mem_flatMap_visit hs

theorem hasNode_of_mem_visit (h : n ∈ p.visit skipped) : p.HasNode n := by
  rcases eq_or_below_of_mem_visit h with rfl | h
  · exact .refl
  · exact h.to_reflTransGen

/-- A walk through a program that skips nothing visits its nodes and no others. -/
theorem mem_visit_iff : n ∈ p.visit [] ↔ p.HasNode n := by
  refine ⟨hasNode_of_mem_visit, fun h => ?_⟩
  have hvisit : p.visit [] =
      .program p :: (p.body.flatMap (Statement.visit fun _ => true)).map .statement := by
    simp [visit]
  rw [hvisit, List.mem_cons]
  rcases Relation.ReflTransGen.cases_head h with rfl | ⟨_, ⟨c, hc, rfl⟩, h⟩
  · exact .inl rfl
  · right
    obtain ⟨s, rfl⟩ : ∃ s, n = .statement s := by
      cases h with
      | refl => exact ⟨c, rfl⟩
      | tail _ hlast =>
        obtain ⟨s, -, rfl⟩ := hlast
        exact ⟨s, rfl⟩
    exact List.mem_map_of_mem (List.mem_flatMap.2 ⟨c, hc, Statement.mem_visit_of_reach h⟩)

/-- The order of a walk through a program, whatever it skips. -/
theorem pairwise_visit (hp : (Node.program p).NestsAll) (skipped : List Text) :
    (p.visit skipped).Pairwise Node.Precedes := by
  unfold visit
  split
  · exact List.pairwise_singleton _ _
  · refine .cons (fun n hn => .inl ?_) (List.pairwise_map.2 ?_)
    · obtain ⟨s, hs, rfl⟩ := List.mem_map.1 hn
      exact below_of_mem_flatMap_visit hs
    · exact pairwise_flatMap_visit hp fun c hc => Scriptlet.pairwise_visit (hp.child hc) _

end Program

/-- **Spans nest**: the program spans its whole text; the nodes directly below a node have spans
that are not empty and lie in its span one after the other; every node but the program starts and
ends with a token. So a walk through the program visits its nodes in the order of their starts, and
a node before those that lie below it. -/
theorem parse_spans_nest {maxDepth : Int} {src : Text} {p : Program}
    (h : parse maxDepth src = .ok p) : p.span = ⟨0, src.length⟩ ∧
      (∀ n, p.HasNode n →
        (∀ c ∈ n.children, c.span.start < c.span.stop ∧ n.span.start ≤ c.span.start ∧
          c.span.stop ≤ n.span.stop) ∧
        n.children.Pairwise fun c c' => c.span.stop ≤ c'.span.start) ∧
      (∀ s, p.HasNode (.statement s) → s.span.OnTokens (tokenize src).tokens) ∧
      (∀ n, n ∈ p.visit [] ↔ p.HasNode n) ∧
      ∀ skipped, (p.visit skipped).Pairwise fun n m => n.span.start ≤ m.span.start ∧
        ¬ n.Below m := by
  have hnests : (Node.program p).NestsAll := fun n hn => nests_of_parse h hn
  refine ⟨?_, fun n hn => ⟨fun c hc => ?_, ?_⟩, fun s => onTokens_of_parse h,
    fun n => Program.mem_visit_iff, fun skipped => ?_⟩
  · obtain ⟨-, d, -, -, rfl⟩ := parse_eq_ok_iff.1 h
    rfl
  · obtain ⟨hlo, hlt, hhi⟩ := (hnests n hn).bounds c.span (List.mem_map_of_mem hc)
    exact ⟨hlt, hlo, hhi⟩
  · exact List.pairwise_map.1 (hnests n hn).pairwise
  · refine (Program.pairwise_visit hnests skipped).imp_of_mem fun {n m} hn hm hprec => ?_
    have hall {k : Node} (hk : k ∈ p.visit skipped) : k.NestsAll := fun l hl =>
      hnests l ((Program.hasNode_of_mem_visit hk).trans hl)
    rcases hprec with hbelow | hle
    · refine ⟨(Node.inside_of_below (hall hn) hbelow).1, fun hbelow' => ?_⟩
      exact Nat.lt_asymm (Node.sizeOf_lt_of_below hbelow) (Node.sizeOf_lt_of_below hbelow')
    · refine ⟨Int.le_trans (hall hn n .refl).le hle, fun hbelow => ?_⟩
      have := Node.inside_of_below (hall hm) hbelow
      omega

theorem parse_spans_nest_definition : ∃ p,
    parse 2 (utf8 "function f(a: T) \x7b return g(1, a); \x7d") = .ok p ∧ p.span = ⟨0, 36⟩ ∧
      (∀ n, p.HasNode n → n.children.Pairwise fun c c' => c.span.stop ≤ c'.span.start) ∧
      (p.visit []).Pairwise fun n m => n.span.start ≤ m.span.start ∧ ¬ n.Below m := by
  obtain ⟨p, hp⟩ : ∃ p, parse 2 (utf8 "function f(a: T) \x7b return g(1, a); \x7d") = .ok p :=
    exists_ok_of_map (by decide +kernel)
  obtain ⟨hspan, hnodes, -, -, hvisit⟩ := parse_spans_nest hp
  exact ⟨p, hp, hspan, fun n hn => (hnodes n hn).2, hvisit []⟩

end Scriptlet
