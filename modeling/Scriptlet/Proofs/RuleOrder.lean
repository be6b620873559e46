import Mathlib.Data.List.Rotate
import Scriptlet.Proofs.Scan

/-!
# The order of the rules

The scanning table is tried from top to bottom, yet its order decides only between a keyword and a
name. At any place at most one rule of the table accepts something, or a keyword and the rule of
names do (`accepting_table`). So in every order that keeps the keywords in front of names, the first
rule that accepts something is the same (`InOrder.firstMatch?_eq`), and with it everything that is
read.
-/

namespace Scriptlet

namespace Rule

/-- The rule of names. -/
def names : Rule := ⟨utf8 "identifier", some .identifier, nameLength⟩

/-- The rules that accept something at the front of the text, in their order. -/
def accepting (rules : List Rule) (t : Text) : List Rule := rules.filter fun r => 0 < r.accept t

/-- The rules of the table in some order, with the keywords in front of names. -/
structure InOrder (rules : List Rule) : Prop where
  /-- The rules are those of the table. -/
  perm : rules.Perm table
  /-- Each keyword stands in front of names. -/
  keywords : ∀ k ∈ Kind.keywords, [keyword k, names].Sublist rules

/-- Layout and comments may come last. -/
theorem inOrder_rotate : InOrder (table.rotate 3) := by
  refine ⟨table.rotate_perm 3, fun k hk => ?_⟩
  have hkeyword : [keyword k].Sublist (Kind.keywords.map keyword) :=
    List.singleton_sublist.2 (List.mem_map_of_mem hk)
  have hnames : [names].Sublist (table.drop 7 ++ table.take 3) :=
    List.singleton_sublist.2 (by simp [table, names, Kind.keywords])
  exact hkeyword.append hnames

/-! ### Rules that accept something together -/

theorem eq_keyword_of_kind {k : Kind} (hk : k ∈ Kind.keywords) :
    ∀ r ∈ table, r.kind = some k → r = keyword k := by
  have other {r : Rule} {k' : Kind} (hk' : k' ∉ Kind.keywords) (h : some k' = some k) :
      r = keyword k :=
    absurd (Option.some.inj h ▸ hk) hk'
  refine forall_mem_table.2 ⟨⟨nofun, nofun, nofun⟩, ?_, ?_, ?_, other (by decide),
    other (by decide), other (by decide), other (by decide)⟩
  · rintro k' - ⟨⟩
    rfl
  · exact fun p hp => other ((by decide : ∀ p ∈ runs, p.1 ∉ Kind.keywords) p hp)
  · exact fun p hp => other ((by decide : ∀ p ∈ signs, p.1 ∉ Kind.keywords) p hp)

theorem eq_names_of_kind : ∀ r ∈ table, r.kind = some .identifier → r = names := by
  have other {r : Rule} {k : Kind} (hk : k ≠ .identifier) (h : some k = some .identifier) :
      r = names :=
    absurd (Option.some.inj h) hk
  refine forall_mem_table.2 ⟨⟨nofun, nofun, nofun⟩, ?_, ?_, ?_, fun _ => rfl, other (by decide),
    other (by decide), other (by decide)⟩
  · exact fun k hk => other fun e => absurd (e ▸ hk) (by decide)
  · exact fun p hp => other ((by decide : ∀ p ∈ runs, p.1 ≠ .identifier) p hp)
  · exact fun p hp => other ((by decide : ∀ p ∈ signs, p.1 ≠ .identifier) p hp)

theorem mem_accepting {rules : List Rule} {t : Text} {r : Rule} :
    r ∈ accepting rules t ↔ r ∈ rules ∧ 0 < r.accept t := by
  simp [accepting]

/-- **At most one rule of the table accepts something**, or one keyword and the rule of names do. -/
theorem accepting_table (t : Text) :
    accepting table t = [] ∨ (∃ r, accepting table t = [r]) ∨
      ∃ k ∈ Kind.keywords, accepting table t = [keyword k, names] := by
  have apart : (accepting table t).Pairwise (Apart t) := (table_apart t).filter _
  have mem (r : Rule) : r ∈ accepting table t → r ∈ table ∧ 0 < r.accept t := mem_accepting.1
  generalize accepting table t = rs at apart mem
  match rs with
  | [] => exact .inl rfl
  | [r] => exact .inr (.inl ⟨r, rfl⟩)
  | r :: r' :: rest =>
    obtain ⟨hr, ha⟩ := mem r (by simp)
    obtain ⟨hr', ha'⟩ := mem r' (by simp)
    rw [List.pairwise_cons, List.pairwise_cons] at apart
    obtain ⟨⟨k, hk, hkind⟩, hkind'⟩ := apart.1 r' (by simp) ha ha'
    refine .inr (.inr ⟨k, hk, ?_⟩)
    rw [eq_keyword_of_kind hk r hr hkind, eq_names_of_kind r' hr' hkind']
    cases rest with
    | nil => rfl
    | cons r'' rest =>
      -- the second rule would be that of a keyword and that of names
      obtain ⟨-, ha''⟩ := mem r'' (by simp)
      obtain ⟨⟨k', hk', hkind''⟩, -⟩ := apart.2.1 r'' (by simp) ha' ha''
      rw [hkind', Option.some.injEq] at hkind''
      exact absurd (hkind'' ▸ hk') (by decide)

/-- A keyword and the rule of names may both accept something. -/
example : (accepting table (utf8 "constant")).map Rule.name =
    [utf8 "const", utf8 "identifier"] := by
  decide +kernel

end Rule

open Rule (accepting InOrder)

/-! ### The first match -/

/-- Only the rules that accept something matter for the first match. -/
theorem firstMatch?_accepting (rules : List Rule) (t : Text) :
    firstMatch? (accepting rules t) t = firstMatch? rules t := by
  induction rules with
  | nil => rfl
  | cons r rules ih =>
    by_cases h : 0 < r.accept t
    · simp [accepting, firstMatch?, h]
    · simp only [accepting, firstMatch?] at ih
      simp [accepting, firstMatch?, h, ih]

/-- In every order with the keywords in front of names the same rule is taken. -/
theorem Rule.InOrder.firstMatch?_eq {rules : List Rule} (h : InOrder rules) (t : Text) :
    firstMatch? rules t = firstMatch? Rule.table t := by
  have perm : (accepting rules t).Perm (accepting Rule.table t) := h.perm.filter _
  rw [← firstMatch?_accepting rules, ← firstMatch?_accepting Rule.table]
  rcases Rule.accepting_table t with e | ⟨r, e⟩ | ⟨k, hk, e⟩
  · rw [e] at perm ⊢
    rw [perm.eq_nil]
  · rw [e] at perm ⊢
    rw [perm.eq_singleton]
  · -- the two rules stand in the same order, and there are no others
    have both := (h.keywords k hk).filter fun r => 0 < r.accept t
    have hkeyword : 0 < (Rule.keyword k).accept t :=
      (Rule.mem_accepting.1 (e ▸ List.mem_cons_self)).2
    have hnames : 0 < Rule.names.accept t :=
      (Rule.mem_accepting.1 (e ▸ List.mem_cons_of_mem _ List.mem_cons_self)).2
    simp only [List.filter_cons, hkeyword, hnames, decide_true, if_true, List.filter_nil] at both
    rw [e] at perm ⊢
    rw [both.eq_of_length perm.length_eq.symm, accepting]

/-! ### What is read -/

namespace Cursor

variable {rules rules' : List Rule}

/-- Rules that are taken at the same places find the same. -/
theorem find_eq_of_firstMatch? (h : ∀ t, firstMatch? rules t = firstMatch? rules' t) (c : Cursor) :
    find rules c = find rules' c := by
  fun_induction find rules c with
  | case1 o => rw [find_nil]
  | case2 o b t hm => rw [find_of_none (by simp) (h _ ▸ hm)]
  | case3 o b t n hn hm ih => exact ih.trans (find_of_passed (by simp) (h _ ▸ hm) o).symm
  | case4 o b t k n hn hm =>
    rw [find_of_token (by simp) (h _ ▸ hm)]
    rfl

theorem readAll_eq_of_find (h : ∀ c, find rules c = find rules' c) (c : Cursor) :
    readAll rules c = readAll rules' c := by
  fun_induction readAll rules c with
  | case1 c t d hf run e hr ih =>
    rw [readAll_of_token ((h c).symm.trans hf), ← ih, hr]
  | case2 c d hf => rw [readAll_of_ended ((h c).symm.trans hf)]
  | case3 c d hf => rw [readAll_of_stuck ((h c).symm.trans hf)]

end Cursor

/-- **The order of the table decides only between keywords and names**: at the front of a text at
most one rule accepts something, unless these are a keyword and the rule of names; and in every
order with the keywords in front of names, every cursor reads the same tokens, fails with the same
errors and ends up at the same places. -/
theorem reading_in_any_order :
    (∀ t : Text,
      accepting Rule.table t = [] ∨ (∃ r, accepting Rule.table t = [r]) ∨
        ∃ k ∈ Kind.keywords, accepting Rule.table t = [Rule.keyword k, Rule.names]) ∧
    ∀ rules, InOrder rules → ∀ c : Cursor,
      c.next rules = c.next Rule.table ∧ c.peek rules = c.peek Rule.table ∧
        c.readAll rules = c.readAll Rule.table := by
  refine ⟨Rule.accepting_table, fun rules h c => ?_⟩
  have find_eq := Cursor.find_eq_of_firstMatch? h.firstMatch?_eq
  have next_eq : c.next rules = c.next Rule.table := by rw [Cursor.next, find_eq, Cursor.next]
  exact ⟨next_eq, congrArg Prod.fst next_eq, Cursor.readAll_eq_of_find find_eq c⟩

/-- With layout and comments last, keywords and names that begin with one are told apart as
before. -/
theorem reading_in_rotated_order :
    InOrder (Rule.table.rotate 3) ∧
      (Cursor.start (utf8 "const constant // const")).readAll (Rule.table.rotate 3) =
        (Cursor.start (utf8 "const constant // const")).readAll Rule.table :=
  ⟨Rule.inOrder_rotate, (reading_in_any_order.2 _ Rule.inOrder_rotate _).2.2⟩

end Scriptlet
