import Scriptlet.Proofs.Agenda
import Scriptlet.Proofs.Relabel
import Scriptlet.Proofs.Spans

/-!
# Layout does not matter

Two texts with the same tokens are parsed alike, whatever stands between the tokens and however long
a run of semicolons or colons is. A tree changes with the labels of its derivation only where these
are texts of names, numbers and strings, or places (`Stmt.tree_map`); so with every place told by
the number of its token, both texts have the same tree. A failure stands at a token that is told by
its kind alone, so both texts fail at the same token.
-/

namespace Scriptlet

open Grammar

/-! ### Numbers of tokens -/

/-- The number of the token that starts at the offset. -/
def startIndex (ts : List Token) (o : Int) : Int := ts.findIdx fun t => (t.start : Int) = o

/-- The number of the token that ends at the offset. -/
def stopIndex (ts : List Token) (o : Int) : Int := ts.findIdx fun t => (t.stop : Int) = o

/-- The statements of a program with every place told by the number of the token that starts or ends
there. -/
def Program.numbered (ts : List Token) (p : Program) : List Statement :=
  p.body.map (Statement.mapSpans (startIndex ts) (stopIndex ts))

/-- The token with its number for its places, and without its text where that does not matter. -/
def Token.numbered (ts : List Token) (t : Token) : Token :=
  ⟨t.kind, if t.kind.hasText then t.text else [], ts.findIdx fun u => (u.start : Int) = t.start,
    ts.findIdx fun u => (u.stop : Int) = t.stop⟩

theorem relabels_numbered (ts : List Token) (t : Token) :
    Relabels (Token.numbered ts) (startIndex ts) (stopIndex ts) (t.kind, t) where
  start := rfl
  stop := rfl
  text := fun h => if_pos h

/-- Where a value grows along the tokens, it tells the number of each. -/
theorem findIdx_eq_of_pairwise {f : Token → Int} {ts : List Token}
    (h : ts.Pairwise fun t u => f t < f u) {i : Nat} (hi : i < ts.length) :
    (ts.findIdx fun u => f u = f ts[i]) = i := by
  rw [List.findIdx_eq hi]
  refine ⟨decide_eq_true rfl, fun j hj => decide_eq_false ?_⟩
  have := List.pairwise_iff_getElem.1 h j i (hj.trans hi) hi hj
  omega

theorem numbered_getElem {lo hi : Int} {ts : List Token} (h : Chain lo (ts.map Token.span) hi)
    {i : Nat} (hi : i < ts.length) :
    ts[i].numbered ts = ⟨ts[i].kind, if ts[i].kind.hasText then ts[i].text else [], i, i⟩ := by
  have hlt (t : Token) (ht : t ∈ ts) : (t.start : Int) < t.stop :=
      (h.bounds _ (List.mem_map_of_mem ht)).2.1
  have hle : ts.Pairwise fun t u => (t.stop : Int) ≤ u.start := List.pairwise_map.1 h.pairwise
  have hstart : ts.Pairwise fun t u => (t.start : Int) < u.start :=
    hle.imp_of_mem fun ht _ hle => Int.lt_of_lt_of_le (hlt _ ht) hle
  have hstop : ts.Pairwise fun t u => (t.stop : Int) < u.stop :=
    hle.imp_of_mem fun _ hu hle => Int.lt_of_le_of_lt hle (hlt _ hu)
  unfold Token.numbered
  rw [findIdx_eq_of_pairwise hstart hi, findIdx_eq_of_pairwise hstop hi]

/-! ### Texts with the same tokens -/

/-- Tokens of the same kind, with the same text where that matters. -/
structure Token.Alike (t u : Token) : Prop where
  kind : t.kind = u.kind
  text : t.kind.hasText = true → t.text = u.text

instance (t u : Token) : Decidable (t.Alike u) :=
  decidable_of_iff (t.kind = u.kind ∧ (t.kind.hasText = true → t.text = u.text))
    ⟨fun h => ⟨h.1, h.2⟩, fun h => ⟨h.kind, h.text⟩⟩

/-- Both texts are all tokens, and the tokens of one are like those of the other. -/
structure SameTokens (a b : Text) : Prop where
  left : ∃ o, (tokenize a).ending = .complete o
  right : ∃ o, (tokenize b).ending = .complete o
  tokens : List.Forall₂ Token.Alike (tokenize a).tokens (tokenize b).tokens

namespace SameTokens

variable {a b : Text}

theorem map_kind (h : SameTokens a b) :
    (tokenize a).tokens.map Token.kind = (tokenize b).tokens.map Token.kind := by
  have := h.tokens
  generalize (tokenize a).tokens = ts, (tokenize b).tokens = us at this
  induction this with
  | nil => rfl
  | cons ht _ ih => rw [List.map_cons, List.map_cons, ht.kind, ih]

/-- Tokens that are alike become the same when their numbers stand for their places. -/
theorem map_numbered (h : SameTokens a b) :
    (tokenize a).tokens.map (Token.numbered (tokenize a).tokens) =
      (tokenize b).tokens.map (Token.numbered (tokenize b).tokens) := by
  obtain ⟨hlen, halike⟩ := List.forall₂_iff_get.1 h.tokens
  refine List.ext_getElem (by rw [List.length_map, List.length_map, hlen]) fun i hi hi' => ?_
  rw [List.length_map] at hi hi'
  have hi := halike i hi hi'
  rw [List.get_eq_getElem, List.get_eq_getElem] at hi
  rw [List.getElem_map, List.getElem_map, numbered_getElem (chain_tokens a),
    numbered_getElem (chain_tokens b), hi.kind]
  split
  · rename_i htext
    rw [hi.text (hi.kind ▸ htext)]
  · rfl

end SameTokens

/-- The statements of a program with their places told by numbers are the tree of the numbered
tokens. -/
theorem exists_numbered {maxDepth : Int} {src : Text} {p : Program}
    (h : parse maxDepth src = .ok p) : ∃ d, Stmt.leavesAll d =
        ((tokenize src).tokens.map (Token.numbered (tokenize src).tokens)).map
          (fun t => (t.kind, t)) ∧
      Stmt.treeAll d = p.numbered (tokenize src).tokens := by
  obtain ⟨-, d, hd, -, rfl⟩ := parse_eq_ok_iff.1 h
  refine ⟨Stmt.mapAll (Token.numbered (tokenize src).tokens) d, ?_, Stmt.treeAll_map ?_⟩
  · rw [Stmt.leavesAll_mapAll, hd, List.map_map, List.map_map]
    rfl
  · rw [hd]
    intro l hl
    obtain ⟨t, -, rfl⟩ := List.mem_map.1 hl
    exact relabels_numbered _ t

/-! ### Failures at the same token -/

/-- Causes of the same kind that expect the same or name the same limit, with the token `t` or `u`
in the way. -/
inductive Cause.Alike (t u : Token) : Cause → Cause → Prop where
  /-- Each token is in the way. -/
  | unexpectedToken (x : Expectation) : Alike t u (.unexpectedToken x t) (.unexpectedToken x u)
  /-- Both texts end too early. -/
  | unexpectedEnd (x : Expectation) : Alike t u (.unexpectedEnd x) (.unexpectedEnd x)
  /-- Both texts are nested too deeply. -/
  | tooDeep (limit : Nat) : Alike t u (.tooDeep limit) (.tooDeep limit)

/-- The token at the front, or the one for the end of the text. -/
def frontToken (o : Nat) (ts : List Token) : Token := ts.headD ⟨.endOfInput, [], o, o⟩

theorem TokenRun.all_getElem? {run : TokenRun} {o : Nat} (ho : run.ending = .complete o)
    {before rest : List Token} (h : run.tokens = before ++ rest) :
    run.all[before.length]? = some (frontToken o rest) := by
  unfold TokenRun.all
  rw [ho, h]
  cases rest <;> simp [frontToken]

theorem Scope.failure_alike (limit o o' : Nat) (why : Snag) {rest rest' : List Token}
    (h : rest.length = rest'.length) :
    (failure ⟨.complete o, limit⟩ why rest).offset = (frontToken o rest).start ∧
      (failure ⟨.complete o', limit⟩ why rest').offset = (frontToken o' rest').start ∧
      Cause.Alike (frontToken o rest) (frontToken o' rest')
        (failure ⟨.complete o, limit⟩ why rest).cause
        (failure ⟨.complete o', limit⟩ why rest').cause := by
  refine ⟨?_, ?_, ?_⟩
  · cases why <;> cases rest <;> rfl
  · cases why <;> cases rest' <;> rfl
  · cases rest with
    | nil =>
      obtain rfl := List.length_eq_zero_iff.1 h.symm
      cases why with
      | expected x => exact .unexpectedEnd x
      | tooDeep => exact .tooDeep limit
    | cons t rest =>
      obtain ⟨u, rest', rfl⟩ := List.exists_cons_of_length_eq_add_one h.symm
      cases why with
      | expected x => exact .unexpectedToken x
      | tooDeep => exact .tooDeep limit

section Texts

variable {maxDepth : Int} {a b : Text} {why : Snag} {rest : List Token}

theorem SameTokens.snag_eq (h : SameTokens a b) (maxDepth : Int) :
    (snag maxDepth a).map (Prod.map id List.length) =
      (snag maxDepth b).map (Prod.map id List.length) :=
  Agenda.snag_of_kinds h.map_kind

/-- A snag in one of two texts with the same tokens is a snag in the other, with as many tokens
before it and from there on. -/
theorem SameTokens.exists_snag (h : SameTokens a b) (hs : snag maxDepth a = some (why, rest)) :
    ∃ before before' rest', snag maxDepth b = some (why, rest') ∧ rest.length = rest'.length ∧
      before.length = before'.length ∧ (tokenize a).tokens = before ++ rest ∧
      (tokenize b).tokens = before' ++ rest' := by
  have hsnag := h.snag_eq maxDepth
  rw [hs, Option.map_some] at hsnag
  obtain ⟨⟨why', rest'⟩, hs', he⟩ := Option.map_eq_some_iff.1 hsnag.symm
  obtain ⟨rfl, hlen⟩ := Prod.mk.inj he
  obtain ⟨before, -, htok, -, -⟩ := Agenda.exists_run_of_snag hs
  obtain ⟨before', -, htok', -, -⟩ := Agenda.exists_run_of_snag hs'
  refine ⟨before, before', rest', hs', hlen.symm, ?_, htok, htok'⟩
  have htokens := h.tokens.length_eq
  rw [htok, htok', List.length_append, List.length_append] at htokens
  have hrest : rest'.length = rest.length := hlen
  omega

theorem parse_eq_error_of_snag {o : Nat} (ho : (tokenize a).ending = .complete o)
    (hs : snag maxDepth a = some (why, rest)) :
    parse maxDepth a = .error (Scope.failure ⟨.complete o, depthLimit maxDepth⟩ why rest) :=
  parse_eq_error_iff.2 (.inl ⟨why, rest, hs, by rw [scope, ho]⟩)

end Texts

/-- **Layout does not matter**: two texts with the same tokens are both programs, with the same tree
when every place in it is told by the number of the token that starts or ends there, or both fail
for the same reason at the token with the same number. -/
theorem parse_same_tokens {a b : Text} (h : SameTokens a b) (maxDepth : Int) :
    (∃ p q, parse maxDepth a = .ok p ∧ parse maxDepth b = .ok q ∧
        p.numbered (tokenize a).tokens = q.numbered (tokenize b).tokens ∧
        (∀ s, p.HasNode (.statement s) → s.span.OnTokens (tokenize a).tokens) ∧
        ∀ s, q.HasNode (.statement s) → s.span.OnTokens (tokenize b).tokens) ∨
      ∃ (f g : Failure) (i : Nat) (t u : Token), parse maxDepth a = .error f ∧
        parse maxDepth b = .error g ∧
        (tokenize a).all[i]? = some t ∧ (tokenize b).all[i]? = some u ∧ f.offset = t.start ∧
        g.offset = u.start ∧ Cause.Alike t u f.cause g.cause := by
  cases hs : snag maxDepth a with
  | none =>
    left
    have hs' : snag maxDepth b = none := by
      have hsnag := h.snag_eq maxDepth
      rw [hs] at hsnag
      exact Option.map_eq_none_iff.1 hsnag.symm
    obtain ⟨p, hp⟩ := exists_parse_iff.2 ⟨h.left, hs⟩
    obtain ⟨q, hq⟩ := exists_parse_iff.2 ⟨h.right, hs'⟩
    obtain ⟨d, hd, hdp⟩ := exists_numbered hp
    obtain ⟨e, he, heq⟩ := exists_numbered hq
    rw [← h.map_numbered] at he
    refine ⟨p, q, hp, hq, ?_, fun s => onTokens_of_parse hp, fun s => onTokens_of_parse hq⟩
    rw [← hdp, ← heq]
    exact treeAll_eq_of_leavesAll hd he
  | some e =>
    right
    obtain ⟨why, rest⟩ := e
    obtain ⟨o, ho⟩ := h.left
    obtain ⟨o', ho'⟩ := h.right
    obtain ⟨before, before', rest', hs', hrest, hbefore, htok, htok'⟩ := h.exists_snag hs
    obtain ⟨hf, hg, hcause⟩ := Scope.failure_alike (depthLimit maxDepth) o o' why hrest
    have hall := TokenRun.all_getElem? ho htok
    have hall' := TokenRun.all_getElem? ho' htok'
    rw [hbefore] at hall
    exact ⟨_, _, before'.length, _, _, parse_eq_error_of_snag ho hs, parse_eq_error_of_snag ho' hs',
      hall, hall', hf, hg, hcause⟩

theorem parse_same_tokens_constant :
    SameTokens (utf8 "const a: T = f(1);") (utf8 "const\ta :: T /* of */=f ( 1 ) ;;;\n") ∧
      ∃ p q, parse 1 (utf8 "const a: T = f(1);") = .ok p ∧
        parse 1 (utf8 "const\ta :: T /* of */=f ( 1 ) ;;;\n") = .ok q ∧
        p.numbered (tokenize (utf8 "const a: T = f(1);")).tokens =
          q.numbered (tokenize (utf8 "const\ta :: T /* of */=f ( 1 ) ;;;\n")).tokens := by
  have h : SameTokens (utf8 "const a: T = f(1);") (utf8 "const\ta :: T /* of */=f ( 1 ) ;;;\n") :=
    ⟨⟨18, by decide +kernel⟩, ⟨34, by decide +kernel⟩, by decide +kernel⟩
  obtain ⟨r, hr⟩ : ∃ p, parse 1 (utf8 "const a: T = f(1);") = .ok p :=
    exists_ok_of_map (by decide +kernel)
  rcases parse_same_tokens h 1 with ⟨p, q, hp, hq, hpq, -, -⟩ | ⟨f, -, -, -, -, hf, -⟩
  · exact ⟨h, p, q, hp, hq, hpq⟩
  · rw [hr] at hf
    cases hf

end Scriptlet
