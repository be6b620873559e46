import Scriptlet.Proofs.Position
import Scriptlet.Proofs.Utf8

/-!
# Boundaries of runes

An offset is a boundary if no rune goes across it. Columns grow from a boundary to any later offset,
which they need not do from within a rune (`Source.position_before`). Reading stays on boundaries
whatever the text: most rules look at bytes, but a gap ends with a whole rune, behind an ASCII byte
or in front of one, and a token ends with an ASCII byte (`Scan.isBoundary`). So tokens are shown in
order, and in a well-formed text no character is cut.
-/

namespace Scriptlet

namespace Text

/-! ### Boundaries -/

/-- The offset lies between two runes, or at an end of the text: the runes of the text are those
before the offset and those from it on. -/
def IsBoundary (t : Text) (o : Nat) : Prop := o ≤ t.length ∧ RunesApart (t.take o) (t.drop o)

theorem isBoundary_zero (t : Text) : IsBoundary t 0 := ⟨Nat.zero_le _, runesApart_nil _⟩

theorem isBoundary_length (a b : Text) : IsBoundary (a ++ b) a.length ↔ RunesApart a b := by
  rw [IsBoundary, List.take_left, List.drop_left]
  apply and_iff_right
  rw [List.length_append]
  omega

/-- From one boundary to the next. -/
theorem IsBoundary.next {t a : Text} {o o' : Nat} (h : IsBoundary t o) (ho' : o' ≤ t.length)
    (e : t.drop o = a ++ t.drop o') (ha : RunesApart a (t.drop o')) : IsBoundary t o' := by
  have htake : t.take o ++ a = t.take o' := by
    rw [← List.append_left_inj (t.drop o'), List.append_assoc, ← e, List.take_append_drop,
      List.take_append_drop]
  have hapart := h.2
  rw [e] at hapart
  refine ⟨ho', ?_⟩
  rw [← htake]
  exact hapart.append ha

theorem lastLine_apart {a b : Text} (h : RunesApart a b) : RunesApart a.lastLine b := by
  by_cases hmem : lineFeed ∈ a
  · obtain ⟨c, hc⟩ := exists_append_lastLine hmem
    generalize a.lastLine = l at hc
    subst hc
    rw [List.append_cons] at h
    exact .of_append_left (runesApart_concat (by decide) c (l ++ b)) h
  · rwa [lastLine_of_notMem hmem]

end Text

/-! ### The order of positions -/

/-- The position is shown first: on an earlier line, or on the same line in an earlier column. -/
def Position.Before (p q : Position) : Prop :=
  p.line < q.line ∨ p.line = q.line ∧ p.column < q.column

/-- **Positions grow from a boundary on.** -/
theorem Source.position_before (name : Text) {t : Text} {o o' : Nat} (h : t.IsBoundary o)
    (hlt : o < o') (hle : o' ≤ t.length) :
    (position ⟨name, t⟩ o).Before (position ⟨name, t⟩ o') := by
  obtain ⟨a, w, b, rfl, rfl, rfl⟩ :
      ∃ a w b, t = (a ++ w) ++ b ∧ o = a.length ∧ o' = (a ++ w).length := by
    obtain ⟨n, rfl⟩ := Nat.exists_eq_add_of_le (Nat.le_of_lt hlt)
    refine ⟨t.take o, (t.drop o).take n, t.drop (o + n), ?_, ?_, ?_⟩
    · rw [← List.take_add, List.take_append_drop]
    · rw [List.length_take_of_le h.1]
    · rw [← List.take_add, List.length_take_of_le hle]
  have hw : w ≠ [] := by
    rintro rfl
    rw [List.append_nil] at hlt
    exact Nat.lt_irrefl _ hlt
  have hfirst := position_length name a (w ++ b)
  rw [← List.append_assoc] at hfirst
  rw [hfirst, position_length name (a ++ w) b, Position.Before, List.count_append]
  by_cases hmem : Text.lineFeed ∈ w
  · have := List.count_pos_iff.2 hmem
    left
    dsimp only
    omega
  · rw [List.append_assoc, Text.isBoundary_length] at h
    have hapart : Text.RunesApart a.lastLine w := (Text.lastLine_apart h).of_append
    have hpos := List.length_pos_iff.2 (Text.runes_ne_nil hw)
    right
    rw [Text.lastLine_append hmem, hapart, List.length_append, List.count_eq_zero_of_not_mem hmem]
    dsimp only
    omega

/-! ### Scans stay on boundaries -/

theorem Passed.runesApart {w t : Text} (h : Passed w t) : Text.RunesApart w t := by
  cases h with
  | layout hc => exact Text.runesApart_encode (Rule.isScalar_of_isLayout hc).1 t
  | @line body _ hb ht =>
    -- the comment ends in front of the byte that ends its line
    cases t with
    | nil => simp [Text.RunesApart, Text.runes_nil]
    | cons b t =>
      apply Text.runesApart_cons
      have hends := ht b rfl
      rw [Rule.endsLine, Bool.or_eq_true, decide_eq_true_eq, decide_eq_true_eq] at hends
      rcases hends with rfl | rfl
      · decide
      · decide
  | @block body _ _ =>
    have hclose : utf8 "*/" = [42] ++ [47] := by decide
    rw [hclose, ← List.append_assoc]
    exact Text.runesApart_concat (by decide) _ t

theorem Gap.runesApart {t rest : Text} (h : Gap t rest) :
    ∃ g, t = g ++ rest ∧ Text.RunesApart g rest := by
  induction h with
  | none t => exact ⟨[], rfl, Text.runesApart_nil t⟩
  | @piece w t rest hw _ ih =>
    obtain ⟨g, rfl, hg⟩ := ih
    exact ⟨w ++ g, (List.append_assoc ..).symm, hw.runesApart.append hg⟩

/-- A token ends with an ASCII byte. -/
theorem Lexeme.runesApart {k : Kind} {w : Text} (h : Lexeme k w) (t : Text) :
    Text.RunesApart w t := by
  by_cases hk : k = .string
  · subst hk
    obtain ⟨v, q, hq, -, rfl⟩ := h
    exact Text.runesApart_concat hq.ascii (q :: v) t
  · have hascii := Text.isAscii_iff.1 (h.isAscii hk) _ (List.getLast_mem h.ne_nil)
    have hconcat := Text.runesApart_concat hascii w.dropLast t
    rwa [List.dropLast_concat_getLast] at hconcat

theorem GapBetween.isBoundary {src : Text} {i j : Nat} (h : GapBetween src i j)
    (hi : src.IsBoundary i) : src.IsBoundary j := by
  obtain ⟨-, hj, hgap⟩ := h
  obtain ⟨g, hg, hapart⟩ := hgap.runesApart
  exact hi.next hj hg hapart

theorem StandsIn.isBoundary {src : Text} {t : Token} (h : StandsIn src t)
    (hstart : src.IsBoundary t.start) : src.IsBoundary t.stop :=
  hstart.next h.stop_le h.drop_start (h.lexeme.runesApart _)

/-- **Scans stay on boundaries**: a scan that begins at one has its tokens between boundaries and
ends at one. -/
theorem Scan.isBoundary {src : Text} {i j : Nat} {ts : List Token} (h : Scan src i ts j)
    (hi : src.IsBoundary i) :
    (∀ t ∈ ts, src.IsBoundary t.start ∧ src.IsBoundary t.stop) ∧ src.IsBoundary j := by
  induction h with
  | gap h => exact ⟨nofun, h.isBoundary hi⟩
  | token h ht _ ih =>
    have hstart := h.isBoundary hi
    have hstop := ht.isBoundary hstart
    obtain ⟨hts, hj⟩ := ih hstop
    refine ⟨?_, hj⟩
    intro t' ht'
    rcases List.mem_cons.1 ht' with rfl | ht'
    · exact ⟨hstart, hstop⟩
    · exact hts t' ht'

theorem Scan.pairwise_starts {src : Text} {i j : Nat} {ts : List Token} (h : Scan src i ts j) :
    (ts.map Token.start ++ [j]).Pairwise (· < ·) := by
  induction h with
  | gap => exact List.pairwise_singleton _ _
  | @token i j t ts _ ht hs ih =>
    rw [List.map_cons, List.cons_append]
    refine .cons ?_ ih
    intro o ho
    have hlt := ht.start_lt
    rcases List.mem_append.1 ho with ho | ho
    · obtain ⟨t', ht', rfl⟩ := List.mem_map.1 ho
      exact Nat.lt_of_lt_of_le hlt (hs.standsIn t' ht').1
    · rw [List.mem_singleton.1 ho]
      exact Nat.lt_of_lt_of_le hlt hs.le_length.1

/-! ### The tokens of a text -/

theorem Cursor.character_of_readAll {rules : List Rule} {c : Cursor} {u : Unreadable}
    (h : (c.readAll rules).1.ending = .unreadable u) :
    u.character = (c.readAll rules).2.character := by
  induction hn : c.rest.length using Nat.strongRecOn generalizing c with
  | _ n ih =>
    cases e : c.find rules with
    | token t d =>
      rw [readAll_of_token e] at h ⊢
      exact ih d.rest.length (hn ▸ find_shorter rules e) h rfl
    | ended d =>
      rw [readAll_of_ended e] at h
      cases h
    | stuck d =>
      rw [readAll_of_stuck e] at h ⊢
      cases h
      rfl

theorem scan_tokenize (src : Text) :
    Scan src 0 (tokenize src).tokens (tokenize src).ending.offset := by
  have h := (scan_readAll src 0 (Nat.zero_le _)).1
  rwa [List.drop_zero] at h

/-- The character that is in the way is the one that is read there. -/
theorem exists_unreadable {src : Text} {u : Unreadable}
    (h : (tokenize src).ending = .unreadable u) :
    ∃ b t, src.drop u.offset = b :: t ∧ u.character = Rune.encode (Rune.read b t).code := by
  have hstop := (scan_readAll src 0 (Nat.zero_le _)).2
  rw [List.drop_zero] at hstop
  have hcharacter := Cursor.character_of_readAll h
  rw [tokenize, Cursor.start] at h
  rw [h] at hstop
  obtain ⟨-, hrest, hnothing⟩ := hstop
  obtain ⟨b, t, e⟩ := List.exists_cons_of_ne_nil hnothing.ne_nil
  refine ⟨b, t, hrest.symm.trans e, ?_⟩
  rw [hcharacter, Cursor.character, Cursor.start, e]

/-- In a well-formed text the character in the way is shown whole. -/
theorem runes_unreadable {src : Text} {u : Unreadable} (h : (tokenize src).ending = .unreadable u)
    (hsrc : src.isWellFormed = true) (hu : src.IsBoundary u.offset) :
    ∃ r rest, Text.runes (src.drop u.offset) = (r, u.character) :: rest := by
  obtain ⟨b, t, e, hcharacter⟩ := exists_unreadable h
  have hparts := hu.2.isWellFormed_append
  rw [List.take_append_drop, hsrc, e] at hparts
  have hrest : Text.isWellFormed (b :: t) = true := (Bool.and_eq_true_iff.1 hparts.symm).2
  have hread : (Rune.read b t).wellFormed = true := by
    by_contra hread
    rw [Text.isWellFormed_malformed (by simpa using hread)] at hrest
    cases hrest
  obtain ⟨hc, -, v, hv⟩ := Rune.eq_encode_append hread
  rw [e, hcharacter, hv]
  exact ⟨_, _, Text.runes_encode_append hc v⟩

/-- In a well-formed text the tokens are well formed. -/
theorem StandsIn.isWellFormed_text {src : Text} {t : Token} (h : StandsIn src t)
    (hsrc : src.isWellFormed = true) (hstart : src.IsBoundary t.start) :
    t.text.isWellFormed = true := by
  have hparts := hstart.2.isWellFormed_append
  rw [List.take_append_drop, hsrc, h.drop_start, (h.lexeme.runesApart _).isWellFormed_append]
    at hparts
  exact (Bool.and_eq_true_iff.1 (Bool.and_eq_true_iff.1 hparts.symm).2).1

/-- The offsets that are shown for a run: where its tokens start, the one for the end included, and
where the character stands that is in the way. -/
def TokenRun.places (r : TokenRun) : List Nat :=
  r.all.map Token.start ++
    match r.ending with
    | .complete _ => []
    | .unreadable u => [u.offset]

theorem TokenRun.places_eq (r : TokenRun) :
    r.places = r.tokens.map Token.start ++ [r.ending.offset] := by
  obtain ⟨ts, ending⟩ := r
  cases ending <;> simp [places, all, Ending.offset]

theorem TokenRun.mem_all {r : TokenRun} {t : Token} (h : t ∈ r.all) :
    t ∈ r.tokens ∨ t = ⟨.endOfInput, [], r.ending.offset, r.ending.offset⟩ := by
  obtain ⟨ts, ending⟩ := r
  cases ending with
  | complete o => simpa [all, Ending.offset] using h
  | unreadable u => exact .inl h

/-- **Tokens are shown in order.** Whatever the bytes, the positions of the tokens, of the end and
of a character in the way come one before the other, and all tokens lie between boundaries of runes.
If the text is well formed, so is every token, and the character in the way is the whole one that
stands there. -/
theorem tokenize_in_order (name src : Text) :
    let run := tokenize src
    let s : Source := ⟨name, src⟩
    (run.places.Pairwise fun (o o' : Nat) => (s.position o).Before (s.position o')) ∧
      (∀ t ∈ run.all, src.IsBoundary t.start ∧ src.IsBoundary t.stop) ∧
      (∀ u, run.ending = .unreadable u → src.IsBoundary u.offset) ∧
      (src.isWellFormed = true →
        (∀ t ∈ run.all, t.text.isWellFormed = true) ∧
          ∀ u, run.ending = .unreadable u →
            ∃ r rest, Text.runes (src.drop u.offset) = (r, u.character) :: rest) := by
  intro run s
  have hscan := scan_tokenize src
  obtain ⟨htokens, hend⟩ := hscan.isBoundary (Text.isBoundary_zero src)
  have hunreadable : ∀ u, run.ending = .unreadable u → src.IsBoundary u.offset := by
    intro u hu
    rw [show (tokenize src).ending = .unreadable u from hu] at hend
    exact hend
  refine ⟨?_, ?_, hunreadable, ?_⟩
  · rw [TokenRun.places_eq]
    refine hscan.pairwise_starts.imp_of_mem ?_
    intro o o' ho ho' hlt
    have hboundary : ∀ o ∈ run.tokens.map Token.start ++ [run.ending.offset], src.IsBoundary o := by
      intro o ho
      rcases List.mem_append.1 ho with ho | ho
      · obtain ⟨t, ht, rfl⟩ := List.mem_map.1 ho
        exact (htokens t ht).1
      · rw [List.mem_singleton.1 ho]
        exact hend
    exact Source.position_before name (hboundary o ho) hlt (hboundary o' ho').1
  · intro t ht
    rcases TokenRun.mem_all ht with ht | rfl
    · exact htokens t ht
    · exact ⟨hend, hend⟩
  · intro hsrc
    refine ⟨?_, fun u hu => runes_unreadable hu hsrc (hunreadable u hu)⟩
    intro t ht
    rcases TokenRun.mem_all ht with ht | rfl
    · exact (standsIn_of_mem_tokenize ht).isWellFormed_text hsrc (htokens t ht).1
    · exact Text.isWellFormed_nil

theorem tokenize_in_order_accents :
    let src := utf8 "a 'é'/*ü*/é"
    let s : Source := ⟨utf8 "f", src⟩
    src.isWellFormed = true ∧ (tokenize src).ending = .unreadable ⟨12, utf8 "é"⟩ ∧
      (tokenize src).places = [0, 2, 12] ∧
      ([0, 2, 12].Pairwise fun (o o' : Nat) => (s.position o).Before (s.position o')) ∧
      ∃ r rest, Text.runes (src.drop 12) = (r, utf8 "é") :: rest := by
  intro src s
  have hsrc : src.isWellFormed = true := by decide +kernel
  have hend : (tokenize src).ending = .unreadable ⟨12, utf8 "é"⟩ := by decide +kernel
  have hplaces : (tokenize src).places = [0, 2, 12] := by decide +kernel
  obtain ⟨horder, -, -, hwell⟩ := tokenize_in_order (utf8 "f") src
  rw [hplaces] at horder
  exact ⟨hsrc, hend, hplaces, horder, (hwell hsrc).2 _ hend⟩

end Scriptlet
