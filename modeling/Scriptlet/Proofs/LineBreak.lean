import Scriptlet.Proofs.Scan

/-!
# Scanning over line breaks

A line feed ends every token but a string, and every comment but a block comment. So a text keeps
its tokens when a line feed and more text come after it (`readAll_append`), and a character with
which nothing starts stays one, unless a string or a block comment is open there
(`NothingStarts.append`). A text that is cut off where a token starts, or that goes on differently
there with the same byte, keeps the tokens before that place (`readAll_cut`, `readAll_replace`), and
where a text stands changes nothing but offsets (`readAll_shift`).
-/

namespace Scriptlet

/-! ### What a line feed ends -/

/-- What follows ends a line: nothing at all, or a line feed or carriage return first. -/
def EndsLine (u : Text) : Prop := ∀ b ∈ u.head?, Rule.endsLine b = true

theorem endsLine_lineFeed (t : Text) : EndsLine (Text.lineFeed :: t) := by
  rintro _ ⟨⟩
  rfl

theorem Passed.append {w t u : Text} (h : Passed w t) (hu : EndsLine u) : Passed w (t ++ u) := by
  cases h with
  | layout hc => exact .layout hc
  | line hb ht =>
    refine .line hb ?_
    cases t with
    | nil => exact hu
    | cons b t => exact ht
  | block hb => exact .block hb

/-- A gap stays one before what ends a line. -/
theorem Gap.append {t rest u : Text} (h : Gap t rest) (hu : EndsLine u) :
    Gap (t ++ u) (rest ++ u) := by
  induction h with
  | none t => exact .none _
  | piece hw _ ih =>
    rw [List.append_assoc]
    exact .piece (hw.append hu) ih

theorem Passed.replace {w t u : Text} (h : Passed w t) (hu : ∀ b ∈ u.head?, b ∈ t.head?) :
    Passed w u := by
  cases h with
  | layout hc => exact .layout hc
  | line hb ht => exact .line hb fun b hb => ht b (hu b hb)
  | block hb => exact .block hb

theorem mem_head?_append {u v : Text} (hv : ∀ b ∈ v.head?, b ∈ u.head?) (t : Text) :
    ∀ b ∈ (t ++ v).head?, b ∈ (t ++ u).head? := by
  cases t with
  | nil => exact hv
  | cons b t => exact fun _ h => h

/-- A gap in front of some text depends only on the byte that follows, if there is one. -/
theorem Gap.replace {t rest u v : Text} (h : Gap (t ++ u) (rest ++ u))
    (hv : ∀ b ∈ v.head?, b ∈ u.head?) : Gap (t ++ v) (rest ++ v) := by
  generalize ex : t ++ u = x at h
  generalize ey : rest ++ u = y at h
  induction h generalizing t with
  | none _ =>
    obtain rfl := List.append_cancel_right (ex.trans ey.symm)
    exact .none (t ++ v)
  | @piece w x y hw h ih =>
    obtain ⟨g, rfl⟩ := h.exists_append
    subst ey
    rw [← List.append_assoc, ← List.append_assoc] at ex
    obtain rfl := List.append_cancel_right ex
    rw [List.append_assoc, List.append_assoc]
    refine .piece (hw.replace ?_) ?_
    · simpa using mem_head?_append hv (g ++ rest)
    · simpa using ih (t := g ++ rest) (List.append_assoc ..) rfl

theorem continues_lineFeed (k : Kind) : k.continues Text.lineFeed = false := by
  cases k <;> rfl

/-- A lexeme that ends before a text ends there too if a line feed comes after that text. -/
theorem Stops.append_lineFeed {k : Kind} {t : Text} (h : Stops k t) (u : Text) :
    Stops k (t ++ Text.lineFeed :: u) := by
  cases t with
  | nil =>
    rintro _ ⟨⟩
    exact continues_lineFeed k
  | cons b t => exact h

theorem Stops.replace {k : Kind} {t u : Text} (h : Stops k t) (hu : ∀ b ∈ u.head?, b ∈ t.head?) :
    Stops k u :=
  fun b hb => h b (hu b hb)

/-! ### Where nothing starts -/

/-- More text may make something of what stands here: it is an open block comment or string. -/
def Open (t : Text) : Prop := utf8 "/*" <+: t ∨ utf8 "\"" <+: t ∨ utf8 "'" <+: t

/-- A word in which `x` does not occur stands before `x` or not at all. -/
theorem prefix_of_prefix_append_cons {w t u : Text} {x : UInt8} (h : w <+: t ++ x :: u)
    (hx : x ∉ w) : w <+: t := by
  rcases List.prefix_or_prefix_of_prefix h (List.prefix_append t (x :: u)) with hw | ⟨v, rfl⟩
  · exact hw
  · rw [List.prefix_append_right_inj] at h
    cases v with
    | nil => exact ⟨[], by simp⟩
    | cons y v =>
      obtain ⟨rfl, -⟩ := List.cons_prefix_cons.1 h
      exact absurd (List.mem_append_right _ List.mem_cons_self) hx

/-- **A line feed mends nothing**: where nothing starts, and neither a block comment nor a string is
open, nothing starts with a line feed and more text behind. -/
theorem NothingStarts.append {t : Text} (h : NothingStarts t) (hopen : ¬ Open t) (u : Text) :
    NothingStarts (t ++ Text.lineFeed :: u) := by
  obtain ⟨b, t, rfl⟩ := List.exists_cons_of_ne_nil h.ne_nil
  have word {w : Text} (hw : Text.lineFeed ∉ w) (hp : w <+: b :: t ++ Text.lineFeed :: u) :
      w <+: b :: t :=
    prefix_of_prefix_append_cons hp hw
  refine ⟨List.cons_ne_nil _ _, fun c hc hp => ?_, fun hp => ?_, fun body hp => ?_,
    fun k hk hp => ?_, h.sign, h.name, h.digit, fun q hq v hp => ?_⟩
  · by_cases hl : Text.lineFeed ∈ Rune.encode c
    · have e := Rune.encode_eq_of_mem_ascii (Rule.isScalar_of_isLayout hc).1 (by decide) hl
      rw [e, List.cons_append, List.cons_prefix_cons] at hp
      exact h.layout c hc (by rw [e, hp.1]; exact ⟨t, rfl⟩)
    · exact h.layout c hc (word hl hp)
  · exact h.lineComment (word (by decide) hp)
  · rw [List.append_assoc] at hp
    exact hopen (.inl (word (by decide) ((List.prefix_append _ _).trans hp)))
  · have letters : ∀ k ∈ Kind.keywords, Text.lineFeed ∉ k.spelling := by decide
    exact h.keyword k hk (word (letters k hk) hp)
  · obtain ⟨rfl, -⟩ := List.cons_prefix_cons.1 hp
    rcases hq with rfl | rfl
    · exact hopen (.inr (.inl ⟨t, rfl⟩))
    · exact hopen (.inr (.inr ⟨t, rfl⟩))

/-! ### More text after a line feed -/

namespace Cursor

variable {o p : Nat} {a r : Text} {t : Token}

theorem find_append_of_token (h : find Rule.table ⟨o, a⟩ = .token t ⟨p, r⟩) (u : Text) :
    find Rule.table ⟨o, a ++ Text.lineFeed :: u⟩ = .token t ⟨p, r ++ Text.lineFeed :: u⟩ := by
  have hf := find_eq_iff.1 h
  cases hf with
  | @token g w rest k e hg hl hs =>
    dsimp only at e hg
    refine find_eq_iff.2 (.token ?_ ?_ hl (hs.append_lineFeed u))
    · simp [e]
    · simpa using hg.append (endsLine_lineFeed u)

/-- Where reading stops it would go on with a line feed and more text. -/
theorem find_append_of_stop
    (h : find Rule.table ⟨o, a⟩ = .ended ⟨p, r⟩ ∨ find Rule.table ⟨o, a⟩ = .stuck ⟨p, r⟩)
    (u : Text) :
    find Rule.table ⟨o, a ++ Text.lineFeed :: u⟩ =
      find Rule.table ⟨p, r ++ Text.lineFeed :: u⟩ := by
  rcases h with h | h
  · cases find_eq_iff.1 h with
    | ended hg =>
      rw [find_gap (hg.append (endsLine_lineFeed u))]
      simp
  · cases find_eq_iff.1 h with
    | stuck e hg =>
      dsimp only at e hg
      rw [find_gap (hg.append (endsLine_lineFeed u)), e]
      simp

/-- What is read from two cursors is the same if what is found there is. -/
theorem readAll_congr {rules : List Rule} {c d : Cursor} (h : find rules c = find rules d) :
    readAll rules c = readAll rules d := by
  cases hd : find rules d with
  | token t e => rw [readAll_of_token (h.trans hd), readAll_of_token hd]
  | ended e => rw [readAll_of_ended (h.trans hd), readAll_of_ended hd]
  | stuck e => rw [readAll_of_stuck (h.trans hd), readAll_of_stuck hd]

/-- **More text after a line feed** is read from where reading has stopped; the tokens up to there
stay as they are. -/
theorem readAll_append {run : TokenRun} (h : readAll Rule.table ⟨o, a⟩ = (run, ⟨p, r⟩)) (u : Text) :
    (readAll Rule.table ⟨o, a ++ Text.lineFeed :: u⟩).1 =
      ⟨run.tokens ++ (readAll Rule.table ⟨p, r ++ Text.lineFeed :: u⟩).1.tokens,
        (readAll Rule.table ⟨p, r ++ Text.lineFeed :: u⟩).1.ending⟩ := by
  induction hn : a.length using Nat.strong_induction_on generalizing o a run with
  | _ n ih =>
    cases hf : find Rule.table ⟨o, a⟩ with
    | token t d =>
      obtain ⟨q, s⟩ := d
      have hlt := find_shorter Rule.table hf
      rw [readAll_of_token hf] at h
      obtain ⟨rfl, hd⟩ := Prod.mk.inj h
      have hrest := ih s.length (hn ▸ hlt) (Prod.ext rfl hd) rfl
      rw [readAll_of_token (find_append_of_token hf u)]
      simp only [hrest, List.cons_append]
    | ended d =>
      rw [readAll_of_ended hf] at h
      obtain ⟨rfl, rfl⟩ := Prod.mk.inj h
      rw [readAll_congr (find_append_of_stop (.inl hf) u)]
      rfl
    | stuck d =>
      rw [readAll_of_stuck hf] at h
      obtain ⟨rfl, rfl⟩ := Prod.mk.inj h
      rw [readAll_congr (find_append_of_stop (.inr hf) u)]
      rfl

end Cursor

/-! ### Other text -/

/-- Where the first token of a run starts, or else where the run ends. -/
def TokenRun.front (run : TokenRun) : Nat :=
  match run.tokens with
  | t :: _ => t.start
  | [] => run.ending.offset

namespace Cursor

variable {o : Nat} {x y : Text} {before after : List Token} {ending : Ending}

/-- Before the front of what is read there is a gap. -/
theorem exists_gap_front (o : Nat) (t : Text) :
    ∃ g rest, t = g ++ rest ∧ Gap t rest ∧ (readAll Rule.table ⟨o, t⟩).1.front = o + g.length := by
  have hf := finds_find ⟨o, t⟩
  generalize e : find Rule.table ⟨o, t⟩ = f at hf
  cases hf with
  | ended hg => exact ⟨t, [], (List.append_nil t).symm, hg, by rw [readAll_of_ended e]; rfl⟩
  | stuck eg hg _ => exact ⟨_, _, eg, hg, by rw [readAll_of_stuck e]; rfl⟩
  | token eg hg _ _ => exact ⟨_, _, eg, hg, by rw [readAll_of_token e]; rfl⟩

theorem exists_find_of_readAll {c : Cursor} {t : Token} {ts : List Token}
    (h : (readAll Rule.table c).1 = ⟨t :: ts, ending⟩) :
    ∃ d, find Rule.table c = .token t d ∧ (readAll Rule.table d).1 = ⟨ts, ending⟩ := by
  cases hf : find Rule.table c with
  | token t' d =>
    rw [readAll_of_token hf] at h
    injection h with ht he
    injection ht with ht hts
    exact ⟨d, by rw [ht], by rw [← hts, ← he]⟩
  | ended d => simp [readAll_of_ended hf] at h
  | stuck d => simp [readAll_of_stuck hf] at h

/-- What is read starts and ends neither before the cursor nor behind the text. -/
theorem front_bounds {t : Text} (h : (readAll Rule.table ⟨o, t⟩).1 = ⟨before ++ after, ending⟩) :
    o ≤ TokenRun.front ⟨after, ending⟩ ∧ TokenRun.front ⟨after, ending⟩ ≤ o + t.length := by
  induction before generalizing o t with
  | nil =>
    obtain ⟨g, rest, rfl, -, hfront⟩ := exists_gap_front o t
    rw [h, List.nil_append] at hfront
    rw [hfront, List.length_append]
    omega
  | cons t₀ before ih =>
    obtain ⟨d, hf, hd⟩ := exists_find_of_readAll h
    have hle := ih hd
    cases find_eq_iff.1 hf with
    | token e =>
      dsimp only at e hle
      rw [e, List.length_append, List.length_append]
      omega

/-- **The text from a place on**, where a token starts or where reading stops, is read from that
place. -/
theorem readAll_behind {t : Text} (h : (readAll Rule.table ⟨o, t⟩).1 = ⟨before ++ after, ending⟩) :
    (readAll Rule.table ⟨TokenRun.front ⟨after, ending⟩,
      t.drop (TokenRun.front ⟨after, ending⟩ - o)⟩).1 =
      ⟨after, ending⟩ := by
  induction before generalizing o t with
  | nil =>
    obtain ⟨g, rest, rfl, hg, hfront⟩ := exists_gap_front o t
    have hread := readAll_congr (find_gap hg o)
    rw [List.length_append, Nat.add_sub_cancel] at hread
    rw [h, List.nil_append] at hfront
    rw [hfront, Nat.add_sub_cancel_left, List.drop_left, ← hread, h, List.nil_append]
  | cons t₀ before ih =>
    obtain ⟨d, hf, hd⟩ := exists_find_of_readAll h
    have hle := (front_bounds hd).1
    have hrest := ih hd
    cases find_eq_iff.1 hf with
    | @token g w rest k e =>
      dsimp only at e hle hrest
      have hfront : TokenRun.front ⟨after, ending⟩ - o =
          g.length + (w.length + (TokenRun.front ⟨after, ending⟩ - (o + g.length + w.length))) := by
        omega
      rw [hfront, e, ← List.drop_drop, List.drop_left, ← List.drop_drop, List.drop_left, hrest]

/-- **Other text** from a place on, where a token starts or where reading stops, leaves the tokens
before that place as they are if it starts with the same byte. -/
theorem readAll_replace (h : (readAll Rule.table ⟨o, x ++ y⟩).1 = ⟨before ++ after, ending⟩)
    (hx : TokenRun.front ⟨after, ending⟩ = o + x.length) {z : Text}
    (hz : ∀ b ∈ z.head?, b ∈ y.head?) : readAll Rule.table ⟨o, x ++ z⟩ =
      (⟨before ++ (readAll Rule.table ⟨o + x.length, z⟩).1.tokens,
        (readAll Rule.table ⟨o + x.length, z⟩).1.ending⟩,
          (readAll Rule.table ⟨o + x.length, z⟩).2) := by
  induction before generalizing o x with
  | nil =>
    obtain ⟨g, rest, e, hg, hfront⟩ := exists_gap_front o (x ++ y)
    rw [h, List.nil_append, hx] at hfront
    obtain ⟨rfl, rfl⟩ := List.append_inj e (by omega)
    have hgap : Gap (x ++ z) ([] ++ z) := Gap.replace (u := y) hg hz
    rw [readAll_congr (find_gap hgap o), List.nil_append, List.length_append, Nat.add_sub_cancel]
    rfl
  | cons t₀ before ih =>
    obtain ⟨d, hf, hd⟩ := exists_find_of_readAll h
    have hle := (front_bounds hd).1
    cases find_eq_iff.1 hf with
    | @token g w rest k e hg hl hs =>
      dsimp only at e hg hle
      -- the token ends before the place
      obtain ⟨r, rfl, rfl⟩ : ∃ r, x = g ++ (w ++ r) ∧ rest = r ++ y := by
        rw [← List.append_assoc] at e
        obtain ⟨r, hr, hr'⟩ | ⟨r, hr, hr'⟩ := List.append_eq_append_iff.1 e
        · have hlen := congrArg List.length hr
          simp only [List.length_append] at hlen
          obtain rfl : r = [] := List.length_eq_zero_iff.1 (by omega)
          exact ⟨[], by simpa using hr.symm, by simpa using hr'.symm⟩
        · exact ⟨r, by rw [hr, List.append_assoc], hr'⟩
      have hgap : Gap (g ++ (w ++ r) ++ z) (w ++ r ++ z) :=
        Gap.replace (u := y) (by simpa using hg) hz
      rw [List.append_assoc w] at hgap
      have hfind : find Rule.table ⟨o, g ++ (w ++ r) ++ z⟩ = .token _ _ :=
        find_eq_iff.2 (.token (g := g) (by simp) hgap hl (hs.replace (mem_head?_append hz r)))
      have hlen : o + (g ++ (w ++ r)).length = o + g.length + w.length + r.length := by
        simp only [List.length_append]
        omega
      rw [hlen] at hx ⊢
      rw [readAll_of_token hfind]
      simp only [ih hd hx, List.cons_append]

/-- A text cut off at such a place has the tokens before it. -/
theorem readAll_cut (h : (readAll Rule.table ⟨o, x ++ y⟩).1 = ⟨before ++ after, ending⟩)
    (hx : TokenRun.front ⟨after, ending⟩ = o + x.length) :
    readAll Rule.table ⟨o, x⟩ = (⟨before, .complete (o + x.length)⟩, ⟨o + x.length, []⟩) := by
  have hread := readAll_replace h hx (z := []) nofun
  rw [readAll_of_ended (find_nil Rule.table (o + x.length)), List.append_nil,
    List.append_nil] at hread
  exact hread

end Cursor

/-! ### Places -/

/-- The token moved by `n` bytes. -/
def Token.shift (n : Nat) (t : Token) : Token := { t with start := t.start + n, stop := t.stop + n }

/-- The ending moved by `n` bytes. -/
def Ending.shift (n : Nat) : Ending → Ending
  | .complete o => .complete (o + n)
  | .unreadable u => .unreadable { u with offset := u.offset + n }

/-- The run moved by `n` bytes. -/
def TokenRun.shift (n : Nat) (run : TokenRun) : TokenRun :=
  ⟨run.tokens.map (Token.shift n), run.ending.shift n⟩

/-- The cursor moved by `n` bytes. -/
def Cursor.shift (n : Nat) (c : Cursor) : Cursor := ⟨c.offset + n, c.rest⟩

/-- The finding moved by `n` bytes. -/
def Finding.shift (n : Nat) : Finding → Finding
  | .token t d => .token (t.shift n) (d.shift n)
  | .ended d => .ended (d.shift n)
  | .stuck d => .stuck (d.shift n)

namespace Cursor

variable (rules : List Rule)

theorem find_shift (n : Nat) (c : Cursor) : find rules (c.shift n) = (find rules c).shift n := by
  fun_induction find rules c with
  | case1 o => exact find_nil rules (o + n)
  | case2 o b t hm => exact find_of_none (List.cons_ne_nil b t) hm (o + n)
  | case3 o b t l hl hm ih =>
    rw [← ih, shift, find_of_passed (List.cons_ne_nil b t) hm]
    simp only [advance, shift, Nat.add_right_comm]
  | case4 o b t k l hl hm =>
    rw [shift, find_of_token (List.cons_ne_nil b t) hm]
    simp only [Finding.shift, Token.shift, token, advance, shift, Nat.add_right_comm]

/-- **Places**: a text that stands `n` bytes further is read alike, `n` bytes further. -/
theorem readAll_shift (n : Nat) (c : Cursor) :
    (readAll rules (c.shift n)).1 = (readAll rules c).1.shift n := by
  induction hl : c.rest.length using Nat.strong_induction_on generalizing c with
  | _ l ih =>
    have hs := find_shift rules n c
    cases hf : find rules c with
    | token t d =>
      rw [hf] at hs
      rw [readAll_of_token hs, readAll_of_token hf, ih _ (hl ▸ find_shorter rules hf) d rfl]
      rfl
    | ended d =>
      rw [hf] at hs
      rw [readAll_of_ended hs, readAll_of_ended hf]
      rfl
    | stuck d =>
      rw [hf] at hs
      rw [readAll_of_stuck hs, readAll_of_stuck hf]
      rfl

end Cursor

/-! ### Texts -/

/-- What is read from a text at a place is what is read from the text alone, moved to that place. -/
theorem tokenize_shift (n : Nat) (t : Text) :
    (tokenize t).shift n = (Cursor.readAll Rule.table ⟨n, t⟩).1 := by
  rw [tokenize, ← Cursor.readAll_shift, Cursor.start, Cursor.shift, Nat.zero_add]

theorem readAll_of_complete {a : Text} {o : Nat} (h : (tokenize a).ending = .complete o) :
    Cursor.readAll Rule.table ⟨0, a⟩ = (tokenize a, ⟨a.length, []⟩) := by
  obtain ⟨-, hstop⟩ := scan_readAll a 0 (Nat.zero_le _)
  rw [List.drop_zero] at hstop
  rw [tokenize, Cursor.start] at h ⊢
  rw [h] at hstop
  obtain ⟨rfl, hc⟩ := hstop
  rw [← hc]

theorem readAll_of_unreadable {a : Text} {u : Unreadable}
    (h : (tokenize a).ending = .unreadable u) :
    Cursor.readAll Rule.table ⟨0, a⟩ = (tokenize a, ⟨u.offset, a.drop u.offset⟩) ∧
      NothingStarts (a.drop u.offset) := by
  obtain ⟨-, hstop⟩ := scan_readAll a 0 (Nat.zero_le _)
  rw [List.drop_zero] at hstop
  rw [tokenize, Cursor.start] at h ⊢
  rw [h] at hstop
  obtain ⟨ho, hr, hn⟩ := hstop
  rw [← hr]
  exact ⟨by rw [ho], hn⟩

/-- Where a whole text is tokens, those of the text after it follow theirs. -/
theorem tokenize_append_of_complete {a : Text} {o : Nat} (h : (tokenize a).ending = .complete o)
    (b : Text) : tokenize (a ++ Text.lineFeed :: b) =
      ⟨(tokenize a).tokens ++ (tokenize b).tokens.map (Token.shift (a.length + 1)),
        (tokenize b).ending.shift (a.length + 1)⟩ := by
  have hread := Cursor.readAll_append (readAll_of_complete h) b
  have hgap : Gap (Text.lineFeed :: b) b := (Passed.layout (c := 10) rfl).gap
  have hb : (Cursor.readAll Rule.table ⟨a.length, Text.lineFeed :: b⟩).1 =
      (tokenize b).shift (a.length + 1) := by
    rw [tokenize_shift, Cursor.readAll_congr (Cursor.find_gap hgap a.length)]
    simp
  rw [List.nil_append, hb] at hread
  exact hread

/-- Where something cannot be read, the tokens before it stay whatever text is added; and it stays
too, unless it is an open block comment or string. -/
theorem tokenize_append_of_unreadable {a : Text} {u : Unreadable}
    (h : (tokenize a).ending = .unreadable u) (b : Text) :
    ∃ ts ending, tokenize (a ++ Text.lineFeed :: b) = ⟨(tokenize a).tokens ++ ts, ending⟩ ∧
      (¬ Open (a.drop u.offset) → ts = [] ∧ ∃ u', ending = .unreadable u') := by
  obtain ⟨hread, hn⟩ := readAll_of_unreadable h
  refine ⟨_, _, Cursor.readAll_append hread b, fun hopen => ?_⟩
  obtain ⟨hne, hm⟩ := nothingStarts_iff.1 (hn.append hopen b)
  rw [Cursor.readAll_of_stuck (Cursor.find_of_none hne hm u.offset)]
  exact ⟨rfl, _, rfl⟩

/-- The tokens of a text stay when a line feed and more text come after it. -/
theorem exists_tokenize_append (a b : Text) :
    ∃ ts ending, tokenize (a ++ Text.lineFeed :: b) = ⟨(tokenize a).tokens ++ ts, ending⟩ := by
  cases h : (tokenize a).ending with
  | complete o => exact ⟨_, _, tokenize_append_of_complete h b⟩
  | unreadable u =>
    obtain ⟨ts, ending, e, -⟩ := tokenize_append_of_unreadable h b
    exact ⟨ts, ending, e⟩

/-- The tokens before a place where a token starts, or where reading stops, are those of the text up
to that place. -/
theorem tokenize_take {src : Text} {before after : List Token} {ending : Ending}
    (h : tokenize src = ⟨before ++ after, ending⟩) :
    TokenRun.front ⟨after, ending⟩ ≤ src.length ∧
      tokenize (src.take (TokenRun.front ⟨after, ending⟩)) =
        ⟨before, .complete (TokenRun.front ⟨after, ending⟩)⟩ := by
  have hle := (Cursor.front_bounds h).2
  rw [Nat.zero_add] at hle
  refine ⟨hle, ?_⟩
  have hlen := List.length_take_of_le hle
  rw [tokenize, Cursor.start, ← List.take_append_drop (TokenRun.front ⟨after, ending⟩) src] at h
  rw [tokenize, Cursor.start, Cursor.readAll_cut h (by rw [hlen, Nat.zero_add]), hlen, Nat.zero_add]

end Scriptlet
