import Scriptlet.Proofs.Scan

/-!
# Well-formed UTF-8

A text is a sequence of written code points and of bytes with which none starts
(`Text.runeInduction`). The well-formed texts have code points only, and repairing a text changes
nothing but the other bytes. An ASCII byte is never part of a longer character, so no rune goes
across the place in front of one or behind one (`Text.runesApart_cons`, `Text.runesApart_concat`),
and a well-formed text may be cut there. Tokens begin and end with ASCII bytes, hence the tokens of
a well-formed text are well formed too.
-/

namespace Scriptlet

open Rune (IsScalar)

/-! ### Reading with more behind -/

/-- What is well formed stays so when more follows. -/
theorem Rune.wellFormed_read_append {b : UInt8} {t : Text} (h : (read b t).wellFormed = true)
    (u : Text) : (read b (t ++ u)).wellFormed = true := by
  obtain ⟨hc, -, v, hv⟩ := eq_encode_append h
  obtain ⟨b', w, hw, -, -, hwell⟩ := read_encode hc (v ++ u)
  rw [hw, List.cons_append, List.cons.injEq] at hv
  rw [hv.1, hv.2, List.append_assoc]
  exact hwell

/-- A byte with which no character starts does not start one that goes on to an ASCII byte. -/
theorem Rune.malformed_read_append {b x : UInt8} {t u : Text} (hx : x.toNat < 0x80)
    (h : (read b t).wellFormed = false) : (read b (t ++ x :: u)).wellFormed = false := by
  by_contra hwell
  rw [Bool.not_eq_false] at hwell
  obtain ⟨hc, -, v, hv⟩ := eq_encode_append hwell
  generalize (read b (t ++ x :: u)).code = c at hc hv
  rw [← List.cons_append] at hv
  -- the character ends in front of the ASCII byte, or has it among its bytes
  have hlonger : ∀ w, b :: t ≠ encode c ++ w := by
    intro w hw
    obtain ⟨b', v', written, -, -, hread⟩ := read_encode hc w
    rw [written, List.cons_append, List.cons.injEq] at hw
    rw [hw.1, hw.2, hread] at h
    cases h
  rcases List.append_eq_append_iff.1 hv with ⟨w, hw, hrest⟩ | ⟨w, hw, -⟩
  · cases w with
    | nil => exact hlonger [] (by rw [hw, List.append_nil, List.append_nil])
    | cons y w =>
      obtain ⟨rfl, -⟩ := List.cons.inj hrest
      have hone := encode_eq_of_mem_ascii hc hx (by rw [hw]; simp)
      rw [hone] at hw
      have := congrArg List.length hw
      simp at this
  · exact hlonger w hw

namespace Text

/-! ### From rune to rune -/

theorem runes_nil : runes [] = [] := by unfold runes; rfl

/-- The rune of a written code point. -/
def writtenRune (c : Nat) : Rune :=
  ⟨c, (Rune.encode c).length, true, List.length_pos_iff.2 (Rune.encode_ne_nil c)⟩

theorem runes_encode_append {c : Nat} (hc : IsScalar c) (t : Text) :
    runes (Rune.encode c ++ t) = (writtenRune c, Rune.encode c) :: runes t := by
  obtain ⟨b, u, written, code, width, wellFormed⟩ := Rune.read_encode hc t
  have hread : Rune.read b (u ++ t) = writtenRune c := by
    rw [writtenRune]
    generalize Rune.read b (u ++ t) = r at code width wellFormed
    cases r
    simp_all
  rw [written, List.cons_append, runes]
  simp only [hread]
  simp only [writtenRune, written, ← List.cons_append, List.take_left, List.drop_left]

theorem runes_encode {c : Nat} (hc : IsScalar c) (t : Text) :
    ∃ r : Rune, r.code = c ∧ r.wellFormed = true ∧
      runes (Rune.encode c ++ t) = (r, Rune.encode c) :: runes t :=
  ⟨writtenRune c, rfl, rfl, runes_encode_append hc t⟩

theorem runes_malformed {b : UInt8} {t : Text} (h : (Rune.read b t).wellFormed = false) :
    runes (b :: t) = (Rune.malformed, [b]) :: runes t := by
  rw [runes]
  simp only [Rune.read_eq_malformed h]
  rfl

/-- A text is empty, or it begins with a written code point or a byte with which none starts. -/
@[elab_as_elim]
theorem runeInduction {motive : Text → Prop} (nil : motive [])
    (scalar : ∀ c t, IsScalar c → motive t → motive (Rune.encode c ++ t))
    (malformed : ∀ b t, (Rune.read b t).wellFormed = false → motive t → motive (b :: t))
    (t : Text) : motive t := by
  induction h : t.length using Nat.strong_induction_on generalizing t with
  | _ n ih =>
    cases t with
    | nil => exact nil
    | cons b t =>
      rw [List.length_cons] at h
      cases hw : (Rune.read b t).wellFormed with
      | false => exact malformed b t hw (ih t.length (by omega) t rfl)
      | true =>
        obtain ⟨hc, -, u, hu⟩ := Rune.eq_encode_append hw
        have hpos := List.length_pos_iff.2 (Rune.encode_ne_nil (Rune.read b t).code)
        have hlen := congrArg List.length hu
        rw [List.length_cons, List.length_append] at hlen
        rw [hu]
        exact scalar _ u hc (ih u.length (by omega) u rfl)

@[simp] theorem isWellFormed_nil : isWellFormed [] = true := by
  simp [isWellFormed, runes_nil]

theorem isWellFormed_encode_append {c : Nat} (hc : IsScalar c) (t : Text) :
    isWellFormed (Rune.encode c ++ t) = isWellFormed t := by
  obtain ⟨r, -, hr, e⟩ := runes_encode hc t
  simp [isWellFormed, e, hr]

theorem isWellFormed_malformed {b : UInt8} {t : Text} (h : (Rune.read b t).wellFormed = false) :
    isWellFormed (b :: t) = false := by
  simp [isWellFormed, runes_malformed h, Rune.malformed]

theorem isWellFormed_cons {b : UInt8} (hb : b.toNat < 0x80) (t : Text) :
    isWellFormed (b :: t) = isWellFormed t := by
  have hc : IsScalar b.toNat := by unfold IsScalar; omega
  simpa [Rune.encode_ascii hb] using isWellFormed_encode_append hc t

@[simp] theorem repaired_nil : repaired [] = [] := by
  simp [repaired, runes_nil]

theorem repaired_encode_append {c : Nat} (hc : IsScalar c) (t : Text) :
    repaired (Rune.encode c ++ t) = Rune.encode c ++ repaired t := by
  obtain ⟨r, -, hr, e⟩ := runes_encode hc t
  simp [repaired, e, hr]

theorem repaired_malformed {b : UInt8} {t : Text} (h : (Rune.read b t).wellFormed = false) :
    repaired (b :: t) = Rune.encode Rune.replacement ++ repaired t := by
  simp [repaired, runes_malformed h, Rune.malformed]

/-- A well-formed text needs no repair. -/
theorem repaired_of_isWellFormed {t : Text} (h : t.isWellFormed = true) : t.repaired = t := by
  induction t using runeInduction with
  | nil => exact repaired_nil
  | scalar c t hc ih =>
    rw [isWellFormed_encode_append hc] at h
    rw [repaired_encode_append hc, ih h]
  | malformed b t hb _ =>
    rw [isWellFormed_malformed hb] at h
    cases h

/-- An ASCII character can be told by its code point or by its byte. -/
theorem code_eq_iff_of_mem_runes {t w : Text} {r : Rune} (h : (r, w) ∈ runes t) {b : UInt8}
    (hb : b.toNat < 0x80) : r.code = b.toNat ↔ w = [b] := by
  induction t using runeInduction with
  | nil =>
    rw [runes_nil] at h
    cases h
  | scalar c t hc ih =>
    obtain ⟨r', hcode, -, e⟩ := runes_encode hc t
    rw [e, List.mem_cons] at h
    rcases h with h | h
    · obtain ⟨rfl, rfl⟩ := Prod.mk.inj h
      rw [hcode, Rune.encode_eq_singleton_iff hc hb]
    · exact ih h
  | malformed x t hx ih =>
    rw [runes_malformed hx, List.mem_cons] at h
    rcases h with h | h
    · obtain ⟨rfl, rfl⟩ := Prod.mk.inj h
      constructor
      · intro hcode
        have : Rune.malformed.code = 0xFFFD := rfl
        omega
      · intro hxb
        rw [(List.cons.inj hxb).1, Rune.read_ascii hb] at hx
        cases hx
    · exact ih h

/-! ### Texts with no rune across them -/

/-- No rune goes from the one text into the other: the runes of both are those of each. -/
def RunesApart (a b : Text) : Prop := runes (a ++ b) = runes a ++ runes b

theorem runesApart_nil (t : Text) : RunesApart [] t := by
  rw [RunesApart, runes_nil]
  rfl

theorem runesApart_encode_append {c : Nat} (hc : IsScalar c) {a b : Text} :
    RunesApart (Rune.encode c ++ a) b ↔ RunesApart a b := by
  rw [RunesApart, List.append_assoc, runes_encode_append hc, runes_encode_append hc,
    List.cons_append, List.cons.injEq, RunesApart]
  exact and_iff_right rfl

theorem runesApart_encode {c : Nat} (hc : IsScalar c) (t : Text) :
    RunesApart (Rune.encode c) t := by
  have h := (runesApart_encode_append hc).2 (runesApart_nil t)
  rwa [List.append_nil] at h

/-- A byte with which no character starts is apart from what follows it, unless this completes
one. -/
theorem runesApart_malformed {x : UInt8} {a b : Text} (hx : (Rune.read x a).wellFormed = false) :
    RunesApart (x :: a) b ↔ (Rune.read x (a ++ b)).wellFormed = false ∧ RunesApart a b := by
  rw [RunesApart, runes_malformed hx, List.cons_append, List.cons_append]
  constructor
  · intro h
    have hread : (Rune.read x (a ++ b)).wellFormed = false := by
      rw [runes, List.cons.injEq, Prod.mk.injEq] at h
      rw [h.1.1]
      rfl
    rw [runes_malformed hread, List.cons.injEq] at h
    exact ⟨hread, h.2⟩
  · rintro ⟨hread, h⟩
    rw [runes_malformed hread, List.cons.injEq]
    exact ⟨rfl, h⟩

/-- What is apart from a text is apart from its beginnings. -/
theorem RunesApart.of_append {a b u : Text} (h : RunesApart a (b ++ u)) : RunesApart a b := by
  induction a using runeInduction with
  | nil => exact runesApart_nil b
  | scalar c a hc ih =>
    rw [runesApart_encode_append hc] at h ⊢
    exact ih h
  | malformed x a hx ih =>
    rw [runesApart_malformed hx] at h ⊢
    refine ⟨?_, ih h.2⟩
    by_contra hwell
    have hlonger := Rune.wellFormed_read_append (by simpa using hwell) u
    rw [List.append_assoc, h.1] at hlonger
    cases hlonger

/-- Any text is apart from one that begins with an ASCII byte. -/
theorem runesApart_cons {b : UInt8} (hb : b.toNat < 0x80) (a t : Text) : RunesApart a (b :: t) := by
  induction a using runeInduction with
  | nil => exact runesApart_nil (b :: t)
  | scalar c a hc ih => exact (runesApart_encode_append hc).2 ih
  | malformed x a hx ih => exact (runesApart_malformed hx).2 ⟨Rune.malformed_read_append hb hx, ih⟩

/-- Cutting at two places: what comes second is apart from the rest. -/
theorem RunesApart.append {a b t : Text} (h : RunesApart a (b ++ t)) (hb : RunesApart b t) :
    RunesApart (a ++ b) t := by
  have hab : RunesApart a b := h.of_append
  rw [RunesApart] at h hb hab ⊢
  rw [List.append_assoc, h, hb, hab, List.append_assoc]

theorem RunesApart.of_append_left {a b t : Text} (ha : RunesApart a (b ++ t))
    (h : RunesApart (a ++ b) t) : RunesApart b t := by
  have hab : RunesApart a b := ha.of_append
  rw [RunesApart] at ha h hab ⊢
  rw [List.append_assoc, ha, hab, List.append_assoc] at h
  exact List.append_cancel_left h

/-- A text that ends with an ASCII byte is apart from any text. -/
theorem runesApart_concat {b : UInt8} (hb : b.toNat < 0x80) (a t : Text) :
    RunesApart (a ++ [b]) t := by
  apply RunesApart.append (runesApart_cons hb a t)
  have hc : IsScalar b.toNat := by
    unfold IsScalar
    omega
  have h := runesApart_encode hc t
  rwa [Rune.encode_ascii hb] at h

theorem RunesApart.isWellFormed_append {a b : Text} (h : RunesApart a b) :
    isWellFormed (a ++ b) = (isWellFormed a && isWellFormed b) := by
  rw [RunesApart] at h
  rw [isWellFormed, h, List.all_append]
  rfl

theorem runes_ne_nil {t : Text} (h : t ≠ []) : runes t ≠ [] := by
  cases t with
  | nil => exact absurd rfl h
  | cons b t =>
    rw [runes]
    exact List.cons_ne_nil _ _

theorem isWellFormed_append {t u : Text} (ht : t.isWellFormed = true) (hu : u.isWellFormed = true) :
    isWellFormed (t ++ u) = true := by
  induction t using runeInduction with
  | nil => exact hu
  | scalar c t hc ih =>
    rw [isWellFormed_encode_append hc] at ht
    rw [List.append_assoc, isWellFormed_encode_append hc]
    exact ih ht
  | malformed b t hb _ =>
    rw [isWellFormed_malformed hb] at ht
    cases ht

/-- **A well-formed text may be cut in front of an ASCII byte**: both parts are well formed. -/
theorem isWellFormed_of_append_cons {t u : Text} {b : UInt8} (hb : b.toNat < 0x80)
    (h : isWellFormed (t ++ b :: u) = true) :
    t.isWellFormed = true ∧ isWellFormed (b :: u) = true := by
  rw [(runesApart_cons hb t u).isWellFormed_append, Bool.and_eq_true] at h
  exact h

/-! ### ASCII -/

/-- Are all bytes ASCII? -/
def isAscii (t : Text) : Bool := t.all (· < 0x80)

theorem isAscii_iff {t : Text} : t.isAscii = true ↔ ∀ b ∈ t, b.toNat < 0x80 := by
  simp [isAscii, UInt8.lt_iff_toNat_lt]

theorem isWellFormed_of_isAscii {t : Text} (h : t.isAscii = true) : t.isWellFormed = true := by
  rw [isAscii_iff] at h
  induction t with
  | nil => exact isWellFormed_nil
  | cons b t ih =>
    rw [isWellFormed_cons (h b List.mem_cons_self)]
    exact ih fun x hx => h x (List.mem_cons_of_mem b hx)

theorem repaired_of_isAscii {t : Text} (h : t.isAscii = true) : t.repaired = t :=
  repaired_of_isWellFormed (isWellFormed_of_isAscii h)

end Text

/-! ### Tokens -/

theorem IsDigits.isAscii {w : Text} (h : IsDigits w) : w.isAscii = true := by
  rw [Text.isAscii_iff]
  intro b hb
  have := h.2 b hb
  simp only [Text.isDigit, Bool.and_eq_true, decide_eq_true_eq, UInt8.le_iff_toNat_le] at this
  have := this.2
  simp only [UInt8.reduceToNat] at this
  omega

theorem IsName.isAscii {w : Text} (h : IsName w) : w.isAscii = true := by
  rw [Text.isAscii_iff]
  intro b hb
  have := h.parts b hb
  simp only [Rule.isNamePart, Rule.isNameStart, Text.isDigit, Bool.or_eq_true, Bool.and_eq_true,
    decide_eq_true_eq, UInt8.le_iff_toNat_le, ← UInt8.toNat_inj, UInt8.reduceToNat] at this
  omega

theorem IsQuote.ascii {q : UInt8} (h : IsQuote q) : q.toNat < 0x80 := by
  rcases h with rfl | rfl <;> decide

/-- Only strings have bytes that are not ASCII. -/
theorem Lexeme.isAscii {k : Kind} {w : Text} (h : Lexeme k w) (hk : k ≠ .string) :
    w.isAscii = true := by
  have run {c : UInt8} (hc : c.toNat < 0x80) (hw : ∀ b ∈ w, b = c) : w.isAscii = true :=
    Text.isAscii_iff.2 fun b hb => hw b hb ▸ hc
  cases k with
  | endOfInput => exact h.elim
  | number => exact IsDigits.isAscii h
  | string => exact absurd rfl hk
  | identifier => exact IsName.isAscii h
  | semicolon => exact run (by decide) h.2
  | colon => exact run (by decide) h.2
  | declare | function | «return» | const | assign | openParen | closeParen | openBrace | closeBrace
  | openBracket | closeBracket | comma => rw [show w = _ from h]; decide

/-- A string in a well-formed text is well formed, with its quotes and without. -/
theorem IsQuoted.isWellFormed {v w a c : Text} (h : IsQuoted v w)
    (hsrc : Text.isWellFormed (a ++ w ++ c) = true) :
    v.isWellFormed = true ∧ w.isWellFormed = true := by
  obtain ⟨q, hq, -, rfl⟩ := h
  have hb := hq.ascii
  rw [List.append_assoc, List.cons_append] at hsrc
  have hopen := (Text.isWellFormed_of_append_cons hb hsrc).2
  rw [Text.isWellFormed_cons hb, List.append_assoc, List.singleton_append] at hopen
  have hv := (Text.isWellFormed_of_append_cons hb hopen).1
  refine ⟨hv, ?_⟩
  rw [Text.isWellFormed_cons hb]
  exact Text.isWellFormed_append hv (by rw [Text.isWellFormed_cons hb, Text.isWellFormed_nil])

theorem StandsIn.drop_start {src : Text} {t : Token} (h : StandsIn src t) :
    src.drop t.start = t.text ++ src.drop t.stop := by
  have hstop : src.drop t.stop = (src.drop t.start).drop (t.stop - t.start) := by
    rw [List.drop_drop, Nat.add_sub_cancel' h.start_le]
  rw [h.text_eq, List.extract_eq_take_drop, hstop, List.take_append_drop]

theorem StandsIn.exists_append {src : Text} {t : Token} (h : StandsIn src t) :
    ∃ a c, src = a ++ t.text ++ c := by
  refine ⟨src.take t.start, src.drop t.stop, ?_⟩
  rw [List.append_assoc, ← h.drop_start, List.take_append_drop]

end Scriptlet
