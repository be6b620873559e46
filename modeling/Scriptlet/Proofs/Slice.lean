import Scriptlet.Proofs.Agenda
import Scriptlet.Proofs.LineBreak
import Scriptlet.Proofs.Phrase
import Scriptlet.Proofs.Relabel
import Scriptlet.Tree.Printer

/-!
# The text of a node

The span of a node is where its text stands, no more and no less: the text between its ends, with a
semicolon behind where one belongs, is parsed as that node alone. The leaves of the node's phrase
are tokens that stand side by side, and what is read between the first and the last of them is these
tokens again (`tokenize_extract`). Their phrase, with the new semicolon, is a derivation of the
piece of text.
-/

namespace Scriptlet

open Grammar

/-! ### The tokens of a piece of text -/

section Extract

variable {t : Text} {i j k : Nat}

theorem extract_append_drop (hij : i ≤ j) : t.extract i j ++ t.drop j = t.drop i := by
  have hj : t.drop j = (t.drop i).drop (j - i) := by
    rw [List.drop_drop, Nat.add_sub_cancel' hij]
  rw [hj, List.extract, List.take_append_drop]

theorem extract_append_extract (hij : i ≤ j) (hjk : j ≤ k) :
    t.extract i j ++ t.extract j k = t.extract i k := by
  have hk : k - i = (j - i) + (k - j) := by omega
  unfold List.extract
  rw [hk, List.take_add, List.drop_drop, Nat.add_sub_cancel' hij]

end Extract

theorem StandsIn.stop_eq {src : Text} {t : Token} (h : StandsIn src t) :
    t.stop = t.start + t.text.length := by
  have hle := h.start_le
  have hstop := h.stop_le
  rw [h.text_eq, List.extract, List.length_take, List.length_drop]
  omega

/-- **A piece of text** from the start of one token to the end of another has the tokens between
them, and then those of the text behind it, if the last token ends there. -/
theorem tokenize_extract {src : Text} {before mid after : List Token} {a b : Token} {u : Text}
    (h : (tokenize src).tokens = before ++ (mid ++ after)) (ha : a ∈ mid.head?)
    (hb : b ∈ mid.getLast?) (hu : Stops b.kind u) :
    a.start ≤ b.start ∧ (tokenize (src.extract a.start b.stop ++ u)).shift a.start =
      ⟨mid ++ ((tokenize u).shift b.stop).tokens, ((tokenize u).shift b.stop).ending⟩ := by
  obtain ⟨front, rfl⟩ := List.getLast?_eq_some_iff.1 hb
  rw [List.append_assoc, List.singleton_append] at h
  have hst : StandsIn src b := standsIn_of_mem_tokenize (by simp [h])
  -- from the first token on, the text is read as before
  have hread : (Cursor.readAll Rule.table ⟨a.start, src.drop a.start⟩).1 =
      ⟨front ++ b :: after, (tokenize src).ending⟩ := by
    have hsrc : (Cursor.readAll Rule.table ⟨0, src⟩).1 =
        ⟨before ++ (front ++ b :: after), (tokenize src).ending⟩ := by
      rw [← h]
      rfl
    have hfront : TokenRun.front ⟨front ++ b :: after, (tokenize src).ending⟩ = a.start := by
      cases front <;> cases ha <;> rfl
    have := Cursor.readAll_behind hsrc
    rwa [hfront] at this
  have hle : a.start ≤ b.start := (Cursor.front_bounds hread).1
  refine ⟨hle, ?_⟩
  -- and up to the last token, other text behind that token changes nothing
  have hlen : a.start + (src.extract a.start b.start).length = b.start := by
    have hstart := hst.start_le
    have hstop := hst.stop_le
    rw [List.extract, List.length_take, List.length_drop]
    omega
  rw [← extract_append_drop hle] at hread
  have hhead : ∀ x ∈ (b.text ++ u).head?, x ∈ (src.drop b.start).head? := by
    rw [← extract_append_drop hst.start_le, ← hst.text_eq]
    obtain ⟨c, w, hw⟩ := List.exists_cons_of_ne_nil hst.lexeme.ne_nil
    rw [hw]
    exact fun x hx => hx
  have hlast : Cursor.find Rule.table ⟨b.start, b.text ++ u⟩ = .token b ⟨b.stop, u⟩ := by
    have hfinds := Finds.token (c := ⟨b.start, b.text ++ u⟩) (g := []) rfl (.none _) hst.lexeme hu
    rw [List.length_nil, Nat.add_zero, ← hst.stop_eq] at hfinds
    exact find_eq_iff.2 hfinds
  have hreplaced := Cursor.readAll_replace hread hlen.symm hhead
  rw [hlen, Cursor.readAll_of_token hlast] at hreplaced
  rw [tokenize_shift, tokenize_shift, ← extract_append_extract hle hst.start_le, ← hst.text_eq,
    List.append_assoc, hreplaced, List.append_assoc]
  rfl

/-! ### Nodes that stand alone -/

/-- The nodes directly below a node that may stand alone: the statements of a list, the value of a
constant, what is returned, and the arguments of a call. -/
def Node.items : Node → List Statement
  | .program p => p.body
  | .statement (.block _ body) => body
  | .statement (.constant _ _ value) => [.expression value]
  | .statement (.return _ argument) => argument.toList.map .expression
  | .statement (.expression (.call _ _ args)) => args.map .expression
  | .statement _ => []

namespace Grammar.Phrase

/-- The phrases of nodes that may stand alone. -/
inductive StandsAlone : Phrase → Prop where
  /-- An expression. -/
  | expr (e : Expr Token) : StandsAlone (.expr e)
  /-- A statement. -/
  | stmt (s : Stmt Token) : StandsAlone (.stmt s)

theorem exists_of_mem_items_expr {e : Expr Token} {s : Statement}
    (h : s ∈ (Node.statement (.expression e.tree)).items) :
    ∃ r ∈ ofExpr e, r.StandsAlone ∧ r.tree = s := by
  cases e with
  | call f o as c =>
    rw [Expr.tree, Node.items, Expr.treeAll_eq, List.map_map] at h
    obtain ⟨e, he, rfl⟩ := List.mem_map.1 h
    exact ⟨.expr e, List.mem_cons_of_mem _ (List.mem_map_of_mem he), .expr e, rfl⟩
  | name | number | string => exact absurd h List.not_mem_nil

/-- A node below that may stand alone comes from a part that does. -/
theorem exists_of_mem_items {q : Phrase} {s : Statement} (h : s ∈ (Node.statement q.tree).items) :
    ∃ r ∈ q.parts, r.StandsAlone ∧ r.tree = s := by
  cases q with
  | name p => exact absurd h List.not_mem_nil
  | expr e => exact exists_of_mem_items_expr h
  | block o body c =>
    rw [tree, Node.items, Stmt.treeAll_eq] at h
    obtain ⟨s, hs, rfl⟩ := List.mem_map.1 h
    exact ⟨.stmt s, List.mem_map_of_mem hs, .stmt s, rfl⟩
  | stmt s =>
    cases s with
    | declaration | definition => exact absurd h List.not_mem_nil
    | constant k id a e c =>
      obtain rfl := List.mem_singleton.1 h
      exact ⟨.expr e, List.mem_cons_of_mem _ List.mem_cons_self, .expr e, rfl⟩
    | «return» k e c =>
      cases e with
      | none => exact absurd h List.not_mem_nil
      | some e =>
        obtain rfl := List.mem_singleton.1 h
        exact ⟨.expr e, List.mem_cons_self, .expr e, rfl⟩
    | expression e c => exact exists_of_mem_items_expr h

end Grammar.Phrase

/-- **In a program, a node that may stand alone is the node of a phrase that does**, whose leaves
stand side by side among those of the program, and which is nested no deeper. -/
theorem Program.HasNode.exists_standsAlone {p : Program} {n : Node} {s : Statement}
    {d : List (Stmt Token)} (h : p.HasNode n) (hs : s ∈ n.items) (hp : p.body = Stmt.treeAll d) :
    ∃ r : Phrase, r.StandsAlone ∧ r.tree = s ∧ r.core <:+: Stmt.leavesAll d ∧
      r.nesting ≤ Stmt.nestingAll d := by
  rcases h.exists_phrase hp with rfl | ⟨q, rfl, hcore, hnest⟩
  · rw [Node.items, hp, Stmt.treeAll_eq] at hs
    obtain ⟨s, hd, rfl⟩ := List.mem_map.1 hs
    have hmem : Phrase.stmt s ∈ d.map .stmt := List.mem_map_of_mem hd
    exact ⟨.stmt s, .stmt s, rfl, (Phrase.laid_body d).isInfix _ hmem, Phrase.nesting_body _ hmem⟩
  · obtain ⟨r, hr, halone, rfl⟩ := Phrase.exists_of_mem_items hs
    exact ⟨r, halone, rfl, (q.laid_parts.isInfix r hr).trans hcore,
      Nat.le_trans (q.nesting_parts r hr) hnest⟩

/-! ### Phrases as programs -/

theorem tokenize_nil : tokenize [] = ⟨[], .complete 0⟩ :=
  congrArg Prod.fst (Cursor.readAll_of_ended (Cursor.find_nil Rule.table 0))

theorem tokenize_semicolon :
    tokenize (utf8 ";") = ⟨[⟨.semicolon, utf8 ";", 0, 1⟩], .complete 1⟩ := by
  have htokens : (tokenize (utf8 ";")).tokens = [⟨.semicolon, utf8 ";", 0, 1⟩] := by decide +kernel
  have hending : (tokenize (utf8 ";")).ending = .complete 1 := by decide +kernel
  rw [← htokens, ← hending]

theorem stops_semicolon {k : Kind} (h : k ≠ .semicolon) : Stops k (utf8 ";") := by
  rintro b ⟨⟩
  cases k with
  | semicolon => exact absurd rfl h
  | _ => rfl

/-- What ends a statement is all tokens. -/
theorem exists_tokenize_terminator (s : Statement) :
    ∃ o, (tokenize s.terminator).ending = .complete o := by
  cases s with
  | definition => exact ⟨0, congrArg TokenRun.ending tokenize_nil⟩
  | declaration | constant | «return» | expression | block =>
    exact ⟨1, congrArg TokenRun.ending tokenize_semicolon⟩

theorem stops_terminator {k : Kind} (h : k ≠ .semicolon) (s : Statement) :
    Stops k s.terminator := by
  cases s with
  | definition => exact fun _ hb => absurd hb (Option.not_mem_none _)
  | declaration | constant | «return» | expression | block => exact stops_semicolon h

/-- **A phrase that stands alone is a statement** with a semicolon behind it where one belongs. -/
theorem Grammar.Phrase.StandsAlone.exists_stmt {r : Phrase} (h : r.StandsAlone) (n : Nat) :
    ∃ s : Stmt Token, s.tree = r.tree ∧ s.nesting = r.nesting ∧
      s.leaves = r.core ++ ((tokenize r.tree.terminator).shift n).tokens.map
        fun t => (t.kind, t) := by
  let c : Token := Token.shift n ⟨.semicolon, utf8 ";", 0, 1⟩
  have hended (s : Stmt Token) (hs : s.semicolon = some c) (ht : s.tree.terminator = utf8 ";") :
      s.leaves = s.core ++ ((tokenize s.tree.terminator).shift n).tokens.map
        fun t => (t.kind, t) := by
    rw [ht, Stmt.leaves_eq, hs, tokenize_semicolon]
    rfl
  cases h with
  | expr e => exact ⟨.expression e c, rfl, rfl, hended _ rfl rfl⟩
  | stmt s =>
    cases s with
    | declaration d f m ps t _ => exact ⟨.declaration d f m ps t c, rfl, rfl, hended _ rfl rfl⟩
    | definition f m ps t o body cl =>
      refine ⟨.definition f m ps t o body cl, rfl, rfl, ?_⟩
      rw [Stmt.leaves_eq]
      show _ = _ ++ ((tokenize []).shift n).tokens.map fun t => (t.kind, t)
      rw [tokenize_nil]
      rfl
    | constant k id a e _ => exact ⟨.constant k id a e c, rfl, rfl, hended _ rfl rfl⟩
    | «return» k e _ => exact ⟨.return k e c, rfl, rfl, hended _ rfl rfl⟩
    | expression e _ => exact ⟨.expression e c, rfl, rfl, hended _ rfl rfl⟩

/-- The token moved back by `n` bytes. -/
def Token.unshift (n : Nat) (t : Token) : Token :=
  { t with start := t.start - n, stop := t.stop - n }

theorem Token.unshift_shift (n : Nat) (t : Token) : (t.shift n).unshift n = t := by
  simp [shift, unshift]

theorem relabels_unshift (n : Nat) (k : Kind) (t : Token) :
    Relabels (Token.unshift n) (· - n) (· - n) (k, t.shift n) where
  start := by simp [Token.shift, Token.unshift]
  stop := by simp [Token.shift, Token.unshift]
  text := fun _ => rfl

/-- A text whose tokens, moved by `n` bytes, are the leaves of a statement has that statement for
its program, moved back. -/
theorem parse_of_leaves {maxDepth : Int} {src : Text} {n o : Nat} {s : Stmt Token}
    (hs : s.leaves = ((tokenize src).shift n).tokens.map fun t => (t.kind, t))
    (ho : ((tokenize src).shift n).ending = .complete o) (hn : s.nesting ≤ depthLimit maxDepth) :
    parse maxDepth src = .ok ⟨⟨0, src.length⟩, [s.tree.mapSpans (· - n) (· - n)]⟩ := by
  rw [parse_eq_ok_iff]
  refine ⟨?_, Stmt.mapAll (Token.unshift n) [s], ?_, ?_, ?_⟩
  · rw [TokenRun.shift] at ho
    cases hend : (tokenize src).ending with
    | complete o => exact ⟨o, rfl⟩
    | unreadable u =>
      rw [hend] at ho
      cases ho
  · rw [Stmt.leavesAll_mapAll, Stmt.leavesAll_eq, List.flatMap_singleton, hs, TokenRun.shift,
      List.map_map, List.map_map]
    refine List.map_congr_left fun t _ => ?_
    exact congrArg (Prod.mk t.kind) (t.unshift_shift n)
  · rw [Stmt.nestingAll_mapAll, Stmt.nestingAll_le_iff]
    exact List.forall_mem_singleton.2 hn
  · rw [Stmt.treeAll_map (f := (· - n)) (g := (· - n)), Stmt.treeAll_eq]
    · rfl
    · rw [Stmt.leavesAll_eq, List.flatMap_singleton, hs, TokenRun.shift, List.map_map]
      intro l hl
      obtain ⟨t, -, rfl⟩ := List.mem_map.1 hl
      exact relabels_unshift n t.kind t

/-- **A span is exactly the text of its node**: in the program of a text, the text from the start of
a statement, of a value, of what is returned or of an argument up to its end, and a semicolon if it
is not a function with a body, is a program of that node alone. -/
theorem parse_extract_span {maxDepth : Int} {src : Text} {p : Program} {n : Node} {s : Statement}
    (h : parse maxDepth src = .ok p) (hn : p.HasNode n) (hs : s ∈ n.items) :
    ∃ i j : Nat, s.span = ⟨i, j⟩ ∧ i < j ∧ j ≤ src.length ∧
      parse maxDepth (src.extract i j ++ s.terminator) =
        .ok ⟨⟨0, (src.extract i j ++ s.terminator).length⟩, [s.mapSpans (· - i) (· - i)]⟩ := by
  obtain ⟨-, d, hd, hnest, rfl⟩ := parse_eq_ok_iff.1 h
  obtain ⟨r, halone, rfl, ⟨before, after, hcore⟩, hle⟩ := hn.exists_standsAlone hs rfl
  -- the leaves of the phrase are tokens of the text that stand side by side
  rw [hd, List.append_assoc] at hcore
  obtain ⟨front, rest, htok, -, hrest⟩ := List.map_eq_append_iff.1 hcore.symm
  obtain ⟨mid, back, rfl, hmid, -⟩ := List.map_eq_append_iff.1 hrest
  obtain ⟨x, hx, y, hy, hkind, hspan⟩ := r.covers
  rw [← hmid, List.head?_map] at hx
  rw [← hmid, List.getLast?_map] at hy
  obtain ⟨a, ha, rfl⟩ := Option.map_eq_some_iff.1 hx
  obtain ⟨b, hb, rfl⟩ := Option.map_eq_some_iff.1 hy
  obtain ⟨hab, hpiece⟩ := tokenize_extract htok ha hb (stops_terminator hkind r.tree)
  have hst : StandsIn src b := by
    refine standsIn_of_mem_tokenize ?_
    rw [htok]
    exact List.mem_append_right _ (List.mem_append_left _ (List.mem_of_mem_getLast? hb))
  refine ⟨a.start, b.stop, hspan, Nat.lt_of_le_of_lt hab hst.start_lt, hst.stop_le, ?_⟩
  -- with the semicolon behind them they are the leaves of a statement
  obtain ⟨t, htree, htnest, hleaves⟩ := halone.exists_stmt b.stop
  obtain ⟨o, ho⟩ := exists_tokenize_terminator r.tree
  rw [← htree] at hpiece hleaves ho ⊢
  refine parse_of_leaves (o := o + b.stop) ?_ ?_ (htnest ▸ Nat.le_trans hle hnest)
  · rw [hpiece, List.map_append, hleaves, hmid]
  · rw [hpiece, TokenRun.shift, ho]
    rfl

theorem parse_extract_span_value : ∃ p s v, parse 1 (utf8 "const a = f( 1 ) ; ") = .ok p ∧
    s ∈ p.body ∧ v ∈ (Node.statement s).items ∧ v.span = ⟨10, 16⟩ ∧
    parse 1 (utf8 "f( 1 );") = .ok ⟨⟨0, 7⟩, [v.mapSpans (· - 10) (· - 10)]⟩ := by
  have hmap : ((parse 1 (utf8 "const a = f( 1 ) ; ")).map fun p => p.body.map fun s =>
      (Node.statement s).items.map fun v => (v.span, v.terminator)) =
        .ok [[(⟨10, 16⟩, utf8 ";")]] := by
    decide +kernel
  cases hp : parse 1 (utf8 "const a = f( 1 ) ; ") with
  | error f =>
    rw [hp] at hmap
    cases hmap
  | ok p =>
    rw [hp] at hmap
    obtain ⟨s, hbody, hitems⟩ := List.map_eq_singleton_iff.1 (Except.ok.inj hmap)
    obtain ⟨v, hv, hspan⟩ := List.map_eq_singleton_iff.1 hitems
    obtain ⟨hspan, hend⟩ := Prod.mk.inj hspan
    have hs : s ∈ p.body := hbody ▸ List.mem_singleton_self s
    have hitem : v ∈ (Node.statement s).items := hv ▸ List.mem_singleton_self v
    obtain ⟨i, j, hij, -, -, hparse⟩ := parse_extract_span hp (.single ⟨s, hs, rfl⟩) hitem
    rw [hspan] at hij
    obtain ⟨hi, hj⟩ := Span.mk.inj hij
    obtain rfl : i = 10 := by omega
    obtain rfl : j = 16 := by omega
    rw [hend] at hparse
    exact ⟨p, s, v, rfl, hs, hitem, hspan, hparse⟩

end Scriptlet
