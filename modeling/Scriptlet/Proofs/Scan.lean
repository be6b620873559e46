import Scriptlet.Proofs.Lexeme
import Scriptlet.Token.Cursor

/-!
# Scans

Scanning loses and invents nothing. Between two tokens there is only what is passed over: layout and
comments (`Gap`). A cursor finds the token, the end or the unreadable character behind the gap that
it stands before (`find_eq_iff`); reading a text to its end gives tokens that stand in the text one
after the other, with nothing but gaps around them (`scan_readAll`).
-/

namespace Scriptlet

/-! ### Gaps -/

/-- `Passed w t`: the piece `w` is passed over in front of `t`. -/
inductive Passed : Text → Text → Prop where
  /-- A layout rune. -/
  | layout {c : Nat} {t : Text} : Rule.isLayout c = true → Passed (Rune.encode c) t
  /-- A line comment, up to the end of its line or of the text. -/
  | line {body t : Text} : (∀ b ∈ body, Rule.endsLine b = false) →
      (∀ b ∈ t.head?, Rule.endsLine b = true) → Passed (utf8 "//" ++ body) t
  /-- A block comment, up to the first mark that closes it. -/
  | block {body t : Text} : ¬ utf8 "*/" <:+: body → Passed (utf8 "/*" ++ body ++ utf8 "*/") t

/-- `Gap t rest`: in front of `rest`, the text `t` has only pieces that are passed over. -/
inductive Gap : Text → Text → Prop where
  /-- No piece. -/
  | none (t : Text) : Gap t t
  /-- A piece and more of them. -/
  | piece {w t rest : Text} : Passed w t → Gap t rest → Gap (w ++ t) rest

theorem Passed.gap {w t : Text} (h : Passed w t) : Gap (w ++ t) t := .piece h (.none t)

theorem Gap.trans {t u v : Text} (h : Gap t u) (h' : Gap u v) : Gap t v := by
  induction h with
  | none => exact h'
  | piece hw _ ih => exact .piece hw (ih h')

theorem Gap.exists_append {t rest : Text} (h : Gap t rest) : ∃ g, t = g ++ rest := by
  induction h with
  | none => exact ⟨[], rfl⟩
  | piece _ _ ih =>
    obtain ⟨g, rfl⟩ := ih
    exact ⟨_ ++ g, (List.append_assoc ..).symm⟩

/-- A run of layout is a gap. -/
theorem gap_layoutLength (t : Text) :
    Rule.layoutLength t ≤ t.length ∧ Gap t (t.drop (Rule.layoutLength t)) := by
  induction h : t.length using Nat.strong_induction_on generalizing t with
  | _ n ih =>
    by_cases h0 : Rule.layoutLength t = 0
    · rw [h0]
      exact ⟨Nat.zero_le n, .none t⟩
    · obtain ⟨c, hc, u, rfl⟩ : ∃ c, Rule.isLayout c = true ∧ Rune.encode c <+: t := by
        simpa [Rule.layoutLength_eq_zero_iff] using h0
      have hpos := List.length_pos_iff.2 (Rune.encode_ne_nil c)
      rw [List.length_append] at h
      obtain ⟨hle, hg⟩ := ih u.length (by omega) u rfl
      rw [Rule.layoutLength_encode_append hc, ← List.drop_drop, List.drop_left]
      exact ⟨by omega, .piece (.layout hc) hg⟩

/-- What a rule that makes no token accepts is a gap. -/
theorem exists_gap_of_accept {t : Text} :
    ∀ r ∈ Rule.table, r.kind = none → 0 < r.accept t →
      ∃ g rest, t = g ++ rest ∧ g.length = r.accept t ∧ Gap t rest := by
  refine Rule.forall_mem_table.2 ⟨⟨fun _ _ => ?_, fun _ h => ?_, fun _ h => ?_⟩, ?_⟩
  · obtain ⟨hle, hg⟩ := gap_layoutLength t
    exact ⟨_, _, (List.take_append_drop _ t).symm, List.length_take_of_le hle, hg⟩
  · obtain ⟨_, rest, rfl, ⟨body, rfl, hb, ht⟩, hl⟩ := Rule.accepts_lineComment.eq_append h
    exact ⟨_, rest, rfl, hl, (Passed.line hb ht).gap⟩
  · obtain ⟨_, rest, rfl, ⟨body, rfl, hb⟩, hl⟩ := Rule.accepts_blockComment.eq_append h
    exact ⟨_, rest, rfl, hl, (Passed.block hb).gap⟩
  · exact ⟨fun _ _ => nofun, fun _ _ => nofun, fun _ _ => nofun, nofun, nofun, nofun, nofun⟩

/-! ### Where nothing starts -/

/-- No token starts at the front of the text, and nothing that is passed over. -/
structure NothingStarts (t : Text) : Prop where
  ne_nil : t ≠ []
  layout : ∀ c, Rule.isLayout c = true → ¬ Rune.encode c <+: t
  lineComment : ¬ utf8 "//" <+: t
  blockComment : ∀ body, ¬ utf8 "/*" ++ body ++ utf8 "*/" <+: t
  keyword : ∀ k ∈ Kind.keywords, ¬ k.spelling <+: t
  sign : ∀ b ∈ t.head?, ∀ p ∈ Rule.runs ++ Rule.signs, b ≠ p.2
  name : ∀ b ∈ t.head?, Rule.isNameStart b = false
  digit : ∀ b ∈ t.head?, Text.isDigit b = false
  string : ∀ q, IsQuote q → ∀ v, ¬ q :: (v ++ [q]) <+: t

theorem nothingStarts_iff {t : Text} :
    NothingStarts t ↔ t ≠ [] ∧ firstMatch? Rule.table t = none := by
  rw [firstMatch?_eq_none_iff]
  cases t with
  | nil => exact ⟨fun h => absurd rfl h.ne_nil, fun h => absurd rfl h.1⟩
  | cons b t =>
    have zero {f : Text → Nat} {p : Prop} (h : 0 < f (b :: t) ↔ p) : f (b :: t) = 0 ↔ ¬ p := by
      rw [← h]; omega
    have word {k : Kind} (hk : k ∈ Kind.keywords) :=
      zero (Rule.wordLength_pos_iff (t := b :: t) (spelling_ne_nil hk))
    rw [Rule.forall_mem_table]
    simp only [Rule.keyword, Rule.repeated, Rule.sign, Rule.layoutLength_eq_zero_iff,
      zero Rule.lineCommentLength_pos_iff, zero Rule.blockCommentLength_pos_iff,
      zero Rule.runLength_pos_iff, zero Rule.byteLength_pos_iff, zero Rule.nameLength_pos_iff,
      zero Rule.digitsLength_pos_iff, zero Rule.quotedLength_pos_iff]
    constructor
    · intro h
      refine ⟨h.ne_nil, ⟨h.layout, h.lineComment, fun ⟨body, hp⟩ => h.blockComment body hp⟩,
        fun k hk => (word hk).2 (h.keyword k hk), fun p hp => ?_, fun p hp => ?_, ?_, ?_,
        fun ⟨v, hv⟩ => h.string 34 (.inl rfl) v hv, fun ⟨v, hv⟩ => h.string 39 (.inr rfl) v hv⟩
      · exact h.sign b rfl p (List.mem_append_left _ hp)
      · exact h.sign b rfl p (List.mem_append_right _ hp)
      · simp [h.name b rfl]
      · simp [h.digit b rfl]
    · rintro ⟨hne, ⟨layout, line, block⟩, words, runs, signs, name, digit, double, single⟩
      refine ⟨hne, layout, line, fun body hp => block ⟨body, hp⟩,
        fun k hk => (word hk).1 (words k hk), ?_, ?_, ?_, ?_⟩
      · rintro _ ⟨⟩ p hp
        rcases List.mem_append.1 hp with hp | hp
        · exact runs p hp
        · exact signs p hp
      · rintro _ ⟨⟩
        simpa using name
      · rintro _ ⟨⟩
        simpa using digit
      · rintro q (rfl | rfl) v hv
        · exact double ⟨v, hv⟩
        · exact single ⟨v, hv⟩

/-! ### Finding -/

namespace Cursor

theorem find_nil (rules : List Rule) (o : Nat) : find rules ⟨o, []⟩ = .ended ⟨o, []⟩ := by
  rw [find]

theorem find_of_none {rules : List Rule} {t : Text} (ht : t ≠ []) (h : firstMatch? rules t = none)
    (o : Nat) : find rules ⟨o, t⟩ = .stuck ⟨o, t⟩ := by
  cases t with
  | nil => exact absurd rfl ht
  | cons b t => rw [find, h]

theorem find_of_passed {rules : List Rule} {t : Text} {n : Nat} {hn : 0 < n} (ht : t ≠ [])
    (h : firstMatch? rules t = some ⟨none, n, hn⟩) (o : Nat) :
    find rules ⟨o, t⟩ = find rules ⟨o + n, t.drop n⟩ := by
  cases t with
  | nil => exact absurd rfl ht
  | cons b t => rw [find, h]; rfl

theorem find_of_token {rules : List Rule} {t : Text} {k : Kind} {n : Nat} {hn : 0 < n} (ht : t ≠ [])
    (h : firstMatch? rules t = some ⟨some k, n, hn⟩) (o : Nat) :
    find rules ⟨o, t⟩ = .token ⟨k, t.take n, o, o + n⟩ ⟨o + n, t.drop n⟩ := by
  cases t with
  | nil => exact absurd rfl ht
  | cons b t => rw [find, h]; rfl

/-- What a rule accepts without making a token does not change what is found. -/
theorem find_of_accept {r : Rule} (hr : r ∈ Rule.table) (hk : r.kind = none) {w t : Text}
    (hw : w ≠ []) (h : r.accept (w ++ t) = w.length) (o : Nat) :
    find Rule.table ⟨o, w ++ t⟩ = find Rule.table ⟨o + w.length, t⟩ := by
  have hpos : 0 < r.accept (w ++ t) := h ▸ List.length_pos_iff.2 hw
  have hm := firstMatch?_of_mem (Rule.table_apart _) hr hpos fun e => by rw [hk] at e; cases e
  rw [hk] at hm
  rw [find_of_passed (List.append_ne_nil_of_left_ne_nil hw t) hm, h, List.drop_left]

/-- A run of layout may be passed over at any place in it. -/
theorem find_layout (t : Text) (o : Nat) :
    find Rule.table ⟨o, t⟩ =
      find Rule.table ⟨o + Rule.layoutLength t, t.drop (Rule.layoutLength t)⟩ := by
  by_cases h : Rule.layoutLength t = 0
  · rw [h]; rfl
  · have hr := (Rule.forall_mem_table.1 fun r (hr : r ∈ Rule.table) => hr).1.1
    have hl := List.length_take_of_le (gap_layoutLength t).1
    have := find_of_accept hr rfl (w := t.take (Rule.layoutLength t))
      (t := t.drop (Rule.layoutLength t))
      (by rw [← List.length_pos_iff, hl]; omega) (by rw [List.take_append_drop, hl]) o
    rwa [List.take_append_drop, hl] at this

theorem find_piece {w t : Text} (h : Passed w t) (o : Nat) :
    find Rule.table ⟨o, w ++ t⟩ = find Rule.table ⟨o + w.length, t⟩ := by
  have table := (Rule.forall_mem_table.1 fun r (hr : r ∈ Rule.table) => hr).1
  cases h with
  | layout hc =>
    -- the rule takes the whole run of layout, of which this is the first rune
    rw [find_layout, Rule.layoutLength_encode_append hc, ← List.drop_drop, List.drop_left,
      ← Nat.add_assoc, ← find_layout]
  | @line body _ hb ht =>
    have hw : utf8 "//" ++ body ≠ [] := List.append_ne_nil_of_left_ne_nil (by decide) _
    exact find_of_accept table.2.1 rfl hw
      ((Rule.accepts_lineComment _ _
        (List.length_pos_iff.2 hw)).2 ⟨_, t, rfl, ⟨body, rfl, hb, ht⟩, rfl⟩) o
  | @block body _ hb =>
    have hw : utf8 "/*" ++ body ++ utf8 "*/" ≠ [] :=
      List.append_ne_nil_of_right_ne_nil _ (by decide)
    exact find_of_accept table.2.2 rfl hw
      ((Rule.accepts_blockComment _ _
        (List.length_pos_iff.2 hw)).2 ⟨_, t, rfl, ⟨body, rfl, hb⟩, rfl⟩) o

/-- A gap does not change what is found behind it. -/
theorem find_gap {t rest : Text} (h : Gap t rest) (o : Nat) :
    find Rule.table ⟨o, t⟩ = find Rule.table ⟨o + (t.length - rest.length), rest⟩ := by
  induction h generalizing o with
  | none t => simp
  | piece hw h ih =>
    obtain ⟨g, rfl⟩ := h.exists_append
    rw [find_piece hw, ih]
    simp only [List.length_append]
    congr 2
    omega

end Cursor

/-- What a cursor finds, told without the table: behind a gap there is the end, a character with
which nothing starts, or a lexeme that ends there. -/
inductive Finds (c : Cursor) : Finding → Prop where
  /-- The end of the text. -/
  | ended : Gap c.rest [] → Finds c (.ended ⟨c.offset + c.rest.length, []⟩)
  /-- A character with which nothing starts. -/
  | stuck {g rest : Text} : c.rest = g ++ rest → Gap c.rest rest → NothingStarts rest →
      Finds c (.stuck ⟨c.offset + g.length, rest⟩)
  /-- A token. -/
  | token {g w rest : Text} {k : Kind} : c.rest = g ++ (w ++ rest) → Gap c.rest (w ++ rest) →
      Lexeme k w → Stops k rest →
      Finds c (.token ⟨k, w, c.offset + g.length, c.offset + g.length + w.length⟩
        ⟨c.offset + g.length + w.length, rest⟩)

/-- What is found behind a gap is found before it. -/
theorem Finds.of_gap {o : Nat} {g t : Text} {f : Finding} (h : Gap (g ++ t) t)
    (hf : Finds ⟨o + g.length, t⟩ f) : Finds ⟨o, g ++ t⟩ f := by
  cases hf with
  | ended h' =>
    have := Finds.ended (c := ⟨o, g ++ t⟩) (h.trans h')
    simpa [Nat.add_assoc] using this
  | @stuck g' rest e h' hn =>
    dsimp only at e
    have := Finds.stuck (c := ⟨o, g ++ t⟩) (g := g ++ g') (by simp [e]) (h.trans h') hn
    simpa [Nat.add_assoc] using this
  | @token g' w rest k e h' hl hs =>
    dsimp only at e
    have := Finds.token (c := ⟨o, g ++ t⟩) (g := g ++ g') (by simp [e]) (h.trans h') hl hs
    simpa [Nat.add_assoc] using this

theorem finds_find (c : Cursor) : Finds c (c.find Rule.table) := by
  obtain ⟨o, t⟩ := c
  induction h : t.length using Nat.strong_induction_on generalizing o t with
  | _ n ih =>
    by_cases ht : t = []
    · subst ht
      rw [Cursor.find_nil]
      exact .ended (.none [])
    cases hm : firstMatch? Rule.table t with
    | none =>
      rw [Cursor.find_of_none ht hm]
      exact .stuck (g := []) rfl (.none t) (nothingStarts_iff.2 ⟨ht, hm⟩)
    | some m =>
      obtain ⟨k, l, hl⟩ := m
      cases k with
      | none =>
        obtain ⟨r, hr, hk, hl'⟩ := firstMatch?_eq_some hm
        dsimp only at hk hl'
        obtain ⟨g, rest, rfl, hg, gap⟩ := exists_gap_of_accept r hr hk.symm (hl' ▸ hl)
        rw [← hl'] at hg
        rw [Cursor.find_of_passed ht hm, ← hg, List.drop_left]
        rw [List.length_append] at h
        exact .of_gap gap (ih rest.length (by omega) _ rest rfl)
      | some k =>
        obtain ⟨w, rest, rfl, hlex, hs, rfl⟩ := (firstMatch?_token_iff hl).1 hm
        rw [Cursor.find_of_token ht hm, List.take_left, List.drop_left]
        exact .token (g := []) rfl (.none _) hlex hs

/-- **Finding**: a cursor finds exactly what stands behind the gap before it. -/
theorem find_eq_iff {c : Cursor} {f : Finding} : c.find Rule.table = f ↔ Finds c f := by
  constructor
  · rintro rfl
    exact finds_find c
  · obtain ⟨o, t⟩ := c
    intro h
    cases h with
    | ended h =>
      rw [Cursor.find_gap h, Cursor.find_nil]
      rfl
    | @stuck g rest e h hn =>
      dsimp only at e
      obtain ⟨hne, hm⟩ := nothingStarts_iff.1 hn
      rw [Cursor.find_gap h, Cursor.find_of_none hne hm]
      simp [e]
    | @token g w rest k e h hl hs =>
      dsimp only at e
      have hm := (firstMatch?_token_iff (List.length_pos_iff.2 hl.ne_nil)).2
        ⟨w, rest, rfl, hl, hs, rfl⟩
      rw [Cursor.find_gap h,
        Cursor.find_of_token (List.append_ne_nil_of_left_ne_nil hl.ne_nil _) hm]
      simp [e]

/-! ### Reading to the end -/

namespace Cursor

variable {rules : List Rule} {c d : Cursor}

theorem readAll_of_token {t : Token} (h : find rules c = .token t d) :
    readAll rules c =
      (⟨t :: (readAll rules d).1.tokens, (readAll rules d).1.ending⟩, (readAll rules d).2) := by
  rw [readAll]
  split <;> simp_all

theorem readAll_of_ended (h : find rules c = .ended d) :
    readAll rules c = (⟨[], .complete d.offset⟩, d) := by
  rw [readAll]
  split <;> simp_all

theorem readAll_of_stuck (h : find rules c = .stuck d) :
    readAll rules c = (⟨[], .unreadable ⟨d.offset, d.character⟩⟩, d) := by
  rw [readAll]
  split <;> simp_all

end Cursor

/-- `GapBetween src i j`: from offset `i` up to offset `j` the text has only what is passed over. -/
def GapBetween (src : Text) (i j : Nat) : Prop :=
  i ≤ j ∧ j ≤ src.length ∧ Gap (src.drop i) (src.drop j)

/-- The token is a lexeme of its kind that stands in the text where its span says. -/
structure StandsIn (src : Text) (t : Token) : Prop where
  lexeme : Lexeme t.kind t.text
  start_le : t.start ≤ t.stop
  stop_le : t.stop ≤ src.length
  text_eq : t.text = src.extract t.start t.stop

theorem StandsIn.start_lt {src : Text} {t : Token} (h : StandsIn src t) : t.start < t.stop := by
  have hpos := List.length_pos_iff.2 h.lexeme.ne_nil
  rw [h.text_eq, List.length_take] at hpos
  omega

/-- `Scan src i ts j`: from offset `i` up to offset `j` the text has the tokens `ts`, with gaps
around them. -/
inductive Scan (src : Text) : Nat → List Token → Nat → Prop where
  /-- A gap without tokens. -/
  | gap {i j : Nat} : GapBetween src i j → Scan src i [] j
  /-- A gap and a token, and what follows. -/
  | token {i j : Nat} {t : Token} {ts : List Token} : GapBetween src i t.start → StandsIn src t →
      Scan src t.stop ts j → Scan src i (t :: ts) j

namespace Scan

variable {src : Text} {i j : Nat} {ts : List Token}

theorem le_length (h : Scan src i ts j) : i ≤ j ∧ j ≤ src.length := by
  induction h with
  | gap h => exact ⟨h.1, h.2.1⟩
  | token h ht _ ih => exact ⟨(h.1.trans ht.start_le).trans ih.1, ih.2⟩

theorem standsIn (h : Scan src i ts j) : ∀ t ∈ ts, i ≤ t.start ∧ StandsIn src t ∧ t.stop ≤ j := by
  induction h with
  | gap => nofun
  | token h ht hs ih =>
    intro t' ht'
    rcases List.mem_cons.1 ht' with rfl | ht'
    · exact ⟨h.1, ht, hs.le_length.1⟩
    · obtain ⟨hi, hst, hj⟩ := ih t' ht'
      exact ⟨(h.1.trans ht.start_le).trans hi, hst, hj⟩

theorem pairwise (h : Scan src i ts j) : ts.Pairwise fun a b => a.stop ≤ b.start := by
  induction h with
  | gap => exact .nil
  | token _ _ hs ih => exact .cons (fun t ht => (hs.standsIn t ht).1) ih

/-- The gaps of a scan: before the first token, between two tokens, and after the last one. -/
theorem gaps (h : Scan src i ts j) :
    List.Forall₂ (GapBetween src) (i :: ts.map Token.stop) (ts.map Token.start ++ [j]) := by
  induction h with
  | gap h => exact .cons h .nil
  | token h _ _ ih => exact .cons h ih

end Scan

/-- Where and why reading a text stops: at its end, or at a character with which nothing starts. -/
def StopsAt (src : Text) (c : Cursor) : Ending → Prop
  | .complete o => o = src.length ∧ c = ⟨o, []⟩
  | .unreadable u => u.offset = c.offset ∧ c.rest = src.drop u.offset ∧ NothingStarts c.rest

/-- What stands behind `g` stands in the text `g.length` further. -/
theorem drop_behind {src g t : Text} {i : Nat} (hi : i ≤ src.length) (e : src.drop i = g ++ t) :
    t = src.drop (i + g.length) ∧ i + g.length + t.length = src.length := by
  refine ⟨by rw [← List.drop_drop, e, List.drop_left], ?_⟩
  have := congrArg List.length e
  rw [List.length_drop, List.length_append] at this
  omega

/-- **Reading**: from every place in a text, the tokens read are a scan of the text up to the place
where reading stops. -/
theorem scan_readAll (src : Text) (i : Nat) (hi : i ≤ src.length) :
    Scan src i ((Cursor.mk i (src.drop i)).readAll Rule.table).1.tokens
        ((Cursor.mk i (src.drop i)).readAll Rule.table).1.ending.offset ∧
      StopsAt src ((Cursor.mk i (src.drop i)).readAll Rule.table).2
        ((Cursor.mk i (src.drop i)).readAll Rule.table).1.ending := by
  induction h : src.length - i using Nat.strong_induction_on generalizing i with
  | _ n ih =>
    have hf := finds_find ⟨i, src.drop i⟩
    generalize e : Cursor.find Rule.table ⟨i, src.drop i⟩ = f at hf
    cases hf with
    | ended hg =>
      have hlen : i + (src.drop i).length = src.length := by
        rw [List.length_drop]
        omega
      rw [Cursor.readAll_of_ended e]
      dsimp only at hlen hg ⊢
      rw [hlen]
      exact ⟨.gap ⟨hi, Nat.le_refl _, (List.drop_length (l := src)).symm ▸ hg⟩, rfl, rfl⟩
    | @stuck g rest eg hg hn =>
      obtain ⟨rfl, hlen⟩ := drop_behind hi eg
      rw [Cursor.readAll_of_stuck e]
      exact ⟨.gap ⟨by dsimp only [Ending.offset]; omega, by dsimp only [Ending.offset]; omega, hg⟩,
        rfl, rfl, hn⟩
    | @token g w rest k eg hg hl hs =>
      obtain ⟨ht, hlen⟩ := drop_behind hi eg
      obtain ⟨hr, hlen'⟩ := drop_behind hi (eg.trans (List.append_assoc g w rest).symm)
      rw [List.length_append, ← Nat.add_assoc] at hr hlen'
      rw [Cursor.readAll_of_token e]
      dsimp only at hg ⊢
      rw [hr]
      have hpos := List.length_pos_iff.2 hl.ne_nil
      obtain ⟨hscan, hstop⟩ := ih _ (by omega) (i + g.length + w.length) (by omega) rfl
      refine ⟨.token ⟨by dsimp only; omega, by dsimp only; omega, ht ▸ hg⟩
        ⟨hl, ?_, ?_, ?_⟩ hscan, hstop⟩
      · exact Nat.le_add_right _ _
      · dsimp only; omega
      · dsimp only
        rw [List.extract, ← ht, Nat.add_sub_cancel_left, List.take_left]

/-- The tokens of a text stand in it. -/
theorem standsIn_of_mem_tokenize {src : Text} {t : Token} (h : t ∈ (tokenize src).tokens) :
    StandsIn src t := by
  obtain ⟨hscan, -⟩ := scan_readAll src 0 (Nat.zero_le _)
  exact (hscan.standsIn t h).2.1

/-- **Scanning loses and invents nothing**: the tokens stand in the text one after the other, each
where its span says, and before, between and after them there are only gaps. Reading stops at the
end of the text, with the token for it, or at the first place where nothing starts. -/
theorem tokenize_lossless (src : Text) :
    ∃ run c, (Cursor.start src).readAll Rule.table = (run, c) ∧ tokenize src = run ∧
      (∀ t ∈ run.all, t.start ≤ t.stop ∧ t.stop ≤ src.length ∧
        t.text = src.extract t.start t.stop) ∧
      (∀ t ∈ run.tokens, t.kind ≠ .endOfInput ∧ t.start < t.stop ∧ t.text ≠ [] ∧
        Lexeme t.kind t.text) ∧
      (run.all.Pairwise fun a b => a.stop ≤ b.start) ∧
      List.Forall₂ (GapBetween src) (0 :: run.tokens.map Token.stop)
        (run.tokens.map Token.start ++ [run.ending.offset]) ∧
      ((run.ending = .complete src.length ∧ c = ⟨src.length, []⟩ ∧
          run.all = run.tokens ++ [⟨.endOfInput, [], src.length, src.length⟩]) ∨
        ∃ u, run.ending = .unreadable u ∧ c = ⟨u.offset, src.drop u.offset⟩ ∧ run.all = run.tokens ∧
          NothingStarts (src.drop u.offset)) := by
  obtain ⟨hscan, hstop⟩ := scan_readAll src 0 (Nat.zero_le _)
  rw [List.drop_zero] at hscan hstop
  refine ⟨_, _, rfl, rfl, ?_⟩
  rw [Cursor.start]
  generalize Cursor.readAll Rule.table ⟨0, src⟩ = r at hscan hstop ⊢
  obtain ⟨⟨ts, ending⟩, c⟩ := r
  dsimp only at hscan hstop ⊢
  have stands : ∀ t ∈ ts, t.start ≤ t.stop ∧ t.stop ≤ src.length ∧
      t.text = src.extract t.start t.stop := by
    intro t ht
    obtain ⟨-, h, -⟩ := hscan.standsIn t ht
    exact ⟨h.start_le, h.stop_le, h.text_eq⟩
  have lexemes : ∀ t ∈ ts, t.kind ≠ .endOfInput ∧ t.start < t.stop ∧ t.text ≠ [] ∧
      Lexeme t.kind t.text := by
    intro t ht
    obtain ⟨-, h, -⟩ := hscan.standsIn t ht
    exact ⟨h.lexeme.kind_ne, h.start_lt, h.lexeme.ne_nil, h.lexeme⟩
  cases ending with
  | complete o =>
    obtain ⟨rfl, rfl⟩ := hstop
    refine ⟨?_, lexemes, ?_, hscan.gaps, .inl ⟨rfl, rfl, rfl⟩⟩
    · rintro t ht
      rcases List.mem_append.1 ht with ht | ht
      · exact stands t ht
      · obtain rfl := List.mem_singleton.1 ht
        exact ⟨Nat.le_refl _, Nat.le_refl _, by simp⟩
    · refine List.pairwise_append.2 ⟨hscan.pairwise, List.pairwise_singleton _ _, ?_⟩
      intro t ht e he
      obtain rfl := List.mem_singleton.1 he
      exact (hscan.standsIn t ht).2.2
  | unreadable u =>
    obtain ⟨ho, hr, hn⟩ := hstop
    obtain ⟨o, rest⟩ := c
    obtain rfl : u.offset = o := ho
    obtain rfl : rest = src.drop u.offset := hr
    exact ⟨stands, lexemes, hscan.pairwise, hscan.gaps, .inr ⟨u, rfl, rfl, rfl, hn⟩⟩

/-! ### Spelling -/

/-- `Spells t ls`: the text is made of the lexemes `ls`, each with its kind, and of gaps around
them. -/
inductive Spells : Text → List (Kind × Text) → Prop where
  /-- No lexeme. -/
  | done {t : Text} : Gap t [] → Spells t []
  /-- A lexeme that ends where it should, and what follows it. -/
  | lexeme {t w rest : Text} {k : Kind} {ls : List (Kind × Text)} : Gap t (w ++ rest) → Lexeme k w →
      Stops k rest → Spells rest ls → Spells t ((k, w) :: ls)

/-- A text is read as it is spelled. -/
theorem Spells.readAll {t : Text} {ls : List (Kind × Text)} (h : Spells t ls) (o : Nat) :
    ∃ ts e, Cursor.readAll Rule.table ⟨o, t⟩ = (⟨ts, .complete e⟩, ⟨e, []⟩) ∧
      ts.map (fun t => (t.kind, t.text)) = ls := by
  induction h generalizing o with
  | done h => exact ⟨[], _, Cursor.readAll_of_ended (find_eq_iff.2 (.ended h)), rfl⟩
  | @lexeme t w rest k ls h hl hs _ ih =>
    obtain ⟨g, hg⟩ := h.exists_append
    obtain ⟨ts, e, hr, rfl⟩ := ih (o + g.length + w.length)
    refine ⟨⟨k, w, o + g.length, o + g.length + w.length⟩ :: ts, e, ?_, rfl⟩
    rw [Cursor.readAll_of_token (find_eq_iff.2 (.token hg h hl hs)), hr]

end Scriptlet
