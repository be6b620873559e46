import Mathlib.Data.List.Forall2
import Mathlib.Data.List.TakeWhile
import Scriptlet.Proofs.Rune

/-!
# Lexemes

What the scanning table reads, said without the table. A lexeme of a kind is a text that can be
spelt for a token of that kind; it ends where the next byte would not continue it. The first rule of
the table that accepts something makes a token exactly where a lexeme stands
(`firstMatch?_token_iff`), and passes over exactly layout and comments.

No text is accepted by two rules of the table, but for a keyword and a name (`table_apart`), so the
order of the table matters for these alone.
-/

namespace Scriptlet

/-! ### The spelling of tokens -/

/-- A quote. -/
def IsQuote (q : UInt8) : Prop := q = 34 ∨ q = 39

/-- A name: it begins with a letter or one of `_`, `$`, `#`, goes on with these and digits, and no
keyword stands at its front. -/
structure IsName (w : Text) : Prop where
  /-- Its first byte may begin a name. -/
  start : ∃ b t, w = b :: t ∧ Rule.isNameStart b = true
  /-- Its bytes may stand in a name. -/
  parts : ∀ b ∈ w, Rule.isNamePart b = true
  /-- No keyword stands at its front. -/
  keyword : ∀ k ∈ Kind.keywords, ¬ k.spelling <+: w

/-- A run of digits that is not empty. -/
def IsDigits (w : Text) : Prop := w ≠ [] ∧ ∀ b ∈ w, Text.isDigit b = true

/-- A text `v` between two quotes that do not occur in it. -/
def IsQuoted (v w : Text) : Prop := ∃ q, IsQuote q ∧ q ∉ v ∧ w = q :: (v ++ [q])

/-- What a token of each kind may be spelt with. -/
def Lexeme : Kind → Text → Prop
  | .endOfInput, _ => False
  | .number, w => IsDigits w
  | .string, w => ∃ v, IsQuoted v w
  | .identifier, w => IsName w
  | .semicolon, w => w ≠ [] ∧ ∀ b ∈ w, b = 59
  | .colon, w => w ≠ [] ∧ ∀ b ∈ w, b = 58
  | .declare, w => w = Kind.spelling .declare
  | .function, w => w = Kind.spelling .function
  | .return, w => w = Kind.spelling .return
  | .const, w => w = Kind.spelling .const
  | k, w => w = k.name

/-- Would the byte continue a lexeme of the kind? -/
def Kind.continues : Kind → UInt8 → Bool
  | .number, b => Text.isDigit b
  | .identifier, b => Rule.isNamePart b
  | .semicolon, b => b = 59
  | .colon, b => b = 58
  | _, _ => false

/-- A lexeme of the kind ends before the text. -/
def Stops (k : Kind) (t : Text) : Prop := ∀ b ∈ t.head?, k.continues b = false

theorem Lexeme.kind_ne {k : Kind} {w : Text} (h : Lexeme k w) : k ≠ .endOfInput := by
  rintro rfl
  exact h

theorem Lexeme.ne_nil {k : Kind} {w : Text} (h : Lexeme k w) : w ≠ [] := by
  cases k with
  | endOfInput => exact h.elim
  | number => exact h.1
  | semicolon => exact h.1
  | colon => exact h.1
  | string =>
    obtain ⟨v, q, -, -, rfl⟩ := h
    simp
  | identifier =>
    obtain ⟨b, t, rfl, -⟩ := h.start
    simp
  | declare | function | «return» | const | assign | openParen | closeParen | openBrace | closeBrace
  | openBracket | closeBracket | comma => rw [show w = _ from h]; decide

/-! ### What each rule accepts -/

namespace Rule

/-- The function accepts exactly the texts `w` of which `P w rest` holds, where `rest` follows. -/
def Accepts (f : Text → Nat) (P : Text → Text → Prop) : Prop :=
  ∀ t n, 0 < n → (f t = n ↔ ∃ w rest, t = w ++ rest ∧ P w rest ∧ w.length = n)

/-- The bytes that satisfy `p` at the front of a text: as many as there are, up to one that does
not. -/
theorem length_takeWhile_eq_iff {p : UInt8 → Bool} {t : Text} {n : Nat} :
    (t.takeWhile p).length = n ↔
      ∃ w rest, t = w ++ rest ∧ ((∀ b ∈ w, p b = true) ∧ ∀ b ∈ rest.head?, p b = false) ∧
        w.length = n := by
  constructor
  · rintro rfl
    refine ⟨t.takeWhile p, t.dropWhile p, List.takeWhile_append_dropWhile.symm, ⟨?_, ?_⟩, rfl⟩
    · exact fun b hb => List.mem_takeWhile_imp hb
    · intro b hb
      have := List.head?_dropWhile_not p t
      rw [hb] at this
      simpa using this
  · rintro ⟨w, rest, rfl, ⟨hw, hrest⟩, rfl⟩
    rw [List.takeWhile_append_of_pos hw]
    cases rest with
    | nil => simp
    | cons b rest => simp [hrest b (by simp)]

theorem accepts_word {w₀ : Text} (h₀ : w₀ ≠ []) : Accepts (wordLength w₀) fun w _ => w = w₀ := by
  intro t n hn
  simp only [wordLength, Text.startsWith, List.isPrefixOf_iff_prefix]
  constructor
  · intro h
    split at h
    · rename_i hp
      obtain ⟨rest, rfl⟩ := hp
      exact ⟨w₀, rest, rfl, rfl, h⟩
    · omega
  · rintro ⟨w, rest, rfl, rfl, rfl⟩
    rw [if_pos (List.prefix_append w rest)]

theorem accepts_run (c : UInt8) :
    Accepts (runLength c) fun w rest => (∀ b ∈ w, b = c) ∧ ∀ b ∈ rest.head?, b ≠ c := by
  intro t n _
  simp only [runLength, length_takeWhile_eq_iff, beq_iff_eq, beq_eq_false_iff_ne]

theorem accepts_byte (c : UInt8) : Accepts (byteLength c) fun w _ => w = [c] := by
  intro t n hn
  constructor
  · intro h
    cases t with
    | nil => simp only [byteLength] at h; omega
    | cons b t =>
      simp only [byteLength] at h
      split at h
      · rename_i hb
        exact ⟨[c], t, by simp [hb], rfl, h⟩
      · omega
  · rintro ⟨w, rest, rfl, rfl, rfl⟩
    simp [byteLength]

theorem accepts_name :
    Accepts nameLength fun w rest => (∃ b t, w = b :: t ∧ isNameStart b = true) ∧
      (∀ b ∈ w, isNamePart b = true) ∧ ∀ b ∈ rest.head?, isNamePart b = false := by
  intro t n hn
  constructor
  · intro h
    cases t with
    | nil => simp only [nameLength] at h; omega
    | cons b t =>
      simp only [nameLength] at h
      split at h
      · rename_i hb
        obtain ⟨w, rest, rfl, ⟨hw, hrest⟩, hl⟩ :=
          length_takeWhile_eq_iff.1 (rfl : _ = (t.takeWhile isNamePart).length)
        refine ⟨b :: w, rest, rfl, ⟨⟨b, w, rfl, hb⟩, ?_, hrest⟩, by simp; omega⟩
        intro c hc
        rcases List.mem_cons.1 hc with rfl | hc
        · simp [isNamePart, hb]
        · exact hw c hc
      · omega
  · rintro ⟨w, rest, rfl, ⟨⟨b, t, rfl, hb⟩, hw, hrest⟩, rfl⟩
    have : ((t ++ rest).takeWhile isNamePart).length = t.length :=
      length_takeWhile_eq_iff.2 ⟨t, rest, rfl,
        ⟨fun c hc => hw c (List.mem_cons_of_mem _ hc), hrest⟩, rfl⟩
    simp [nameLength, hb, this]

theorem accepts_digits :
    Accepts digitsLength fun w rest =>
      (∀ b ∈ w, Text.isDigit b = true) ∧ ∀ b ∈ rest.head?, Text.isDigit b = false := by
  intro t n _
  simp only [digitsLength, length_takeWhile_eq_iff]

/-- Where a byte first occurs. -/
theorem idxOf?_eq_some_iff_append {q : UInt8} {t : Text} {i : Nat} :
    t.idxOf? q = some i ↔ ∃ v rest, t = v ++ q :: rest ∧ q ∉ v ∧ v.length = i := by
  induction t generalizing i with
  | nil => simp
  | cons b t ih =>
    rw [List.idxOf?_cons]
    constructor
    · intro h
      split at h
      · rename_i hb
        cases h
        exact ⟨[], t, by simp [eq_of_beq hb], by simp, rfl⟩
      · rename_i hb
        obtain ⟨j, hj, rfl⟩ := Option.map_eq_some_iff.1 h
        obtain ⟨v, rest, rfl, hv, rfl⟩ := ih.1 hj
        refine ⟨b :: v, rest, rfl, ?_, rfl⟩
        rw [List.mem_cons, not_or]
        exact ⟨fun e => hb (by simp [e]), hv⟩
    · rintro ⟨v, rest, e, hv, rfl⟩
      cases v with
      | nil =>
        rw [List.nil_append, List.cons.injEq] at e
        simp [e.1]
      | cons c v =>
        rw [List.cons_append, List.cons.injEq] at e
        obtain ⟨rfl, rfl⟩ := e
        rw [List.mem_cons, not_or] at hv
        rw [if_neg (by simpa using Ne.symm hv.1), ih.2 ⟨v, rest, rfl, hv.2, rfl⟩]
        rfl

theorem accepts_quoted (q : UInt8) :
    Accepts (quotedLength q) fun w _ => ∃ v, q ∉ v ∧ w = q :: (v ++ [q]) := by
  intro t n hn
  constructor
  · intro h
    cases t with
    | nil => simp only [quotedLength] at h; omega
    | cons b t =>
      simp only [quotedLength] at h
      split at h
      · rename_i hb
        cases hi : t.idxOf? q with
        | none => rw [hi] at h; simp only at h; omega
        | some i =>
          rw [hi] at h
          obtain ⟨v, rest, rfl, hv, rfl⟩ := idxOf?_eq_some_iff_append.1 hi
          exact ⟨q :: (v ++ [q]), rest, by simp [hb], ⟨v, hv, rfl⟩, by simpa using h⟩
      · omega
  · rintro ⟨w, rest, rfl, ⟨v, hv, rfl⟩, rfl⟩
    have : (v ++ q :: rest).idxOf? q = some v.length :=
      idxOf?_eq_some_iff_append.2 ⟨v, rest, rfl, hv, rfl⟩
    simp [quotedLength, this]

/-! ### Comments -/

theorem accepts_lineComment :
    Accepts lineCommentLength fun w rest => ∃ body, w = utf8 "//" ++ body ∧
      (∀ b ∈ body, endsLine b = false) ∧ ∀ b ∈ rest.head?, endsLine b = true := by
  intro t n hn
  simp only [lineCommentLength, Text.startsWith, List.isPrefixOf_iff_prefix]
  have slashes : ∀ b ∈ utf8 "//", endsLine b = false :=
    List.forall_mem_cons.2 ⟨rfl, List.forall_mem_singleton.2 rfl⟩
  constructor
  · intro h
    split at h
    · rename_i hp
      obtain ⟨t, rfl⟩ := hp
      rw [List.takeWhile_append_of_pos fun b hb => by simp [slashes b hb], List.length_append] at h
      obtain ⟨body, rest, rfl, ⟨hbody, hrest⟩, hl⟩ :=
        length_takeWhile_eq_iff.1 (rfl : _ = (t.takeWhile fun b => !endsLine b).length)
      refine ⟨utf8 "//" ++ body, rest, by simp, ⟨body, rfl, ?_, ?_⟩, ?_⟩
      · exact fun b hb => by simpa using hbody b hb
      · exact fun b hb => by simpa using hrest b hb
      · rw [List.length_append]; omega
    · omega
  · rintro ⟨w, rest, rfl, ⟨body, rfl, hbody, hrest⟩, rfl⟩
    rw [if_pos (by rw [List.append_assoc]; exact List.prefix_append _ _)]
    refine length_takeWhile_eq_iff.2 ⟨_, rest, rfl, ⟨fun b hb => ?_, fun b hb => ?_⟩, rfl⟩
    · rcases List.mem_append.1 hb with hb | hb
      · simp [slashes b hb]
      · simp [hbody b hb]
    · simp [hrest b hb]

theorem find?_eq_none_iff {w t : Text} : Text.find? w t = none ↔ ¬ w <:+: t := by
  induction t with
  | nil => cases w <;> simp [Text.find?]
  | cons b t ih =>
    simp only [Text.find?, Text.startsWith, List.isPrefixOf_iff_prefix, List.infix_cons_iff, not_or]
    split
    · rename_i h; simp [h]
    · rename_i h; simp [h, ih]

/-- Where a block comment is closed. -/
theorem find?_close_eq_some_iff {t : Text} {i : Nat} :
    Text.find? (utf8 "*/") t = some i ↔
      ∃ body rest, t = body ++ utf8 "*/" ++ rest ∧ ¬ utf8 "*/" <:+: body ∧ body.length = i := by
  have close : utf8 "*/" = [42, 47] := rfl
  simp only [close]
  induction t generalizing i with
  | nil => simp [Text.find?]
  | cons b t ih =>
    simp only [Text.find?, Text.startsWith, List.isPrefixOf_iff_prefix]
    constructor
    · intro h
      split at h
      · rename_i hp
        obtain ⟨rest, hr⟩ := hp
        cases h
        exact ⟨[], rest, by simpa using hr.symm, by simp, rfl⟩
      · rename_i hp
        obtain ⟨j, hj, rfl⟩ := Option.map_eq_some_iff.1 h
        obtain ⟨body, rest, rfl, hb, rfl⟩ := ih.1 hj
        refine ⟨b :: body, rest, rfl, ?_, rfl⟩
        rw [List.infix_cons_iff, not_or]
        refine ⟨fun h => hp ?_, hb⟩
        exact h.trans ⟨[42, 47] ++ rest, by simp⟩
    · rintro ⟨body, rest, e, hb, rfl⟩
      cases body with
      | nil =>
        rw [if_pos ⟨rest, by simpa using e.symm⟩]
        rfl
      | cons c body =>
        rw [List.cons_append, List.cons_append, List.cons.injEq] at e
        obtain ⟨rfl, rfl⟩ := e
        rw [List.infix_cons_iff, not_or] at hb
        -- a mark that starts at `b` would lie in the body, since the mark after it starts with `*`
        have hp : ¬ [42, 47] <+: b :: (body ++ [42, 47] ++ rest) := by
          rintro ⟨r, hr⟩
          cases body with
          | nil => simp at hr
          | cons d body =>
            simp only [List.cons_append, List.nil_append, List.cons.injEq] at hr
            exact hb.1 ⟨body, by simp [hr.1, hr.2.1]⟩
        rw [if_neg hp, ih.2 ⟨body, rest, rfl, hb.2, rfl⟩]
        rfl

theorem accepts_blockComment :
    Accepts blockCommentLength fun w _ => ∃ body, w = utf8 "/*" ++ body ++ utf8 "*/" ∧
      ¬ utf8 "*/" <:+: body := by
  intro t n hn
  simp only [blockCommentLength, Text.startsWith, List.isPrefixOf_iff_prefix]
  constructor
  · intro h
    split at h
    · rename_i hp
      obtain ⟨t, rfl⟩ := hp
      rw [show (utf8 "/*" ++ t).drop 2 = t from rfl] at h
      cases hf : Text.find? (utf8 "*/") t with
      | none => rw [hf] at h; simp only at h; omega
      | some i =>
        rw [hf] at h
        dsimp only at h
        obtain ⟨body, rest, rfl, hb, rfl⟩ := find?_close_eq_some_iff.1 hf
        refine ⟨utf8 "/*" ++ body ++ utf8 "*/", rest, by simp, ⟨body, rfl, hb⟩, ?_⟩
        rw [← h, List.length_append, List.length_append, show (utf8 "/*").length = 2 from rfl,
          show (utf8 "*/").length = 2 from rfl]
        omega
    · omega
  · rintro ⟨w, rest, rfl, ⟨body, rfl, hb⟩, rfl⟩
    have hf : Text.find? (utf8 "*/") (body ++ utf8 "*/" ++ rest) = some body.length :=
      find?_close_eq_some_iff.2 ⟨body, rest, rfl, hb, rfl⟩
    rw [List.append_assoc, List.append_assoc, if_pos (List.prefix_append _ _),
      show (utf8 "/*" ++ (body ++ (utf8 "*/" ++ rest))).drop 2 = body ++ utf8 "*/" ++ rest by
        rw [← List.append_assoc body]; rfl, hf]
    dsimp only
    rw [List.length_append, List.length_append, show (utf8 "/*").length = 2 from rfl,
      show (utf8 "*/").length = 2 from rfl]
    omega

theorem Accepts.eq_append {f : Text → Nat} {P : Text → Text → Prop} (hf : Accepts f P) {t : Text}
    (h : 0 < f t) : ∃ w rest, t = w ++ rest ∧ P w rest ∧ w.length = f t :=
  (hf t (f t) h).1 rfl

/-! ### What each rule asks of the front of a text -/

theorem layoutLength_first {b : UInt8} {t : Text} (h : 0 < layoutLength (b :: t)) :
    (9 ≤ b.toNat ∧ b.toNat ≤ 13) ∨ b.toNat = 32 ∨ 128 ≤ b.toNat := by
  by_cases hb : b.toNat < 0x80
  · rw [layoutLength_cons, Rune.read_ascii hb] at h
    split at h
    · rename_i hc
      simp only [isLayout, isBlank, Bool.or_eq_true, Bool.and_eq_true, decide_eq_true_eq] at hc
      omega
    · omega
  · omega

theorem wordLength_pos_iff {w t : Text} (hw : w ≠ []) : 0 < wordLength w t ↔ w <+: t := by
  simp only [wordLength, Text.startsWith, List.isPrefixOf_iff_prefix]
  split
  · rename_i h
    simp [h, List.length_pos_iff, hw]
  · rename_i h
    simp [h]

theorem runLength_pos_iff {c b : UInt8} {t : Text} : 0 < runLength c (b :: t) ↔ b = c := by
  rw [runLength, List.takeWhile_cons]
  split <;> simp_all

theorem byteLength_pos_iff {c b : UInt8} {t : Text} : 0 < byteLength c (b :: t) ↔ b = c := by
  rw [byteLength]
  split <;> simp_all

theorem nameLength_pos_iff {b : UInt8} {t : Text} : 0 < nameLength (b :: t) ↔
    isNameStart b = true := by
  rw [nameLength]
  split <;> simp_all

theorem digitsLength_pos_iff {b : UInt8} {t : Text} :
    0 < digitsLength (b :: t) ↔ Text.isDigit b = true := by
  rw [digitsLength, List.takeWhile_cons]
  split <;> simp_all

theorem quotedLength_pos_iff {q : UInt8} {t : Text} :
    0 < quotedLength q t ↔ ∃ v, q :: (v ++ [q]) <+: t := by
  constructor
  · intro h
    obtain ⟨_, rest, rfl, ⟨v, -, rfl⟩, -⟩ := (accepts_quoted q).eq_append h
    exact ⟨v, List.prefix_append _ rest⟩
  · rintro ⟨v, rest, rfl⟩
    cases hi : (v ++ q :: rest).idxOf? q with
    | none => simp at hi
    | some i => simp [quotedLength, hi]

theorem lineCommentLength_pos_iff {t : Text} : 0 < lineCommentLength t ↔ utf8 "//" <+: t := by
  simp only [lineCommentLength, Text.startsWith, List.isPrefixOf_iff_prefix]
  split
  · rename_i h
    obtain ⟨u, rfl⟩ := h
    simp [show utf8 "//" = [47, 47] from rfl, endsLine, Text.lineFeed, Text.carriageReturn]
  · rename_i h
    simp [h]

theorem blockCommentLength_pos_iff {t : Text} :
    0 < blockCommentLength t ↔ ∃ body, utf8 "/*" ++ body ++ utf8 "*/" <+: t := by
  constructor
  · intro h
    obtain ⟨_, rest, rfl, ⟨body, rfl, -⟩, -⟩ := accepts_blockComment.eq_append h
    exact ⟨body, List.prefix_append _ rest⟩
  · rintro ⟨body, rest, rfl⟩
    rw [List.append_assoc, List.append_assoc, blockCommentLength, Text.startsWith,
      if_pos (List.isPrefixOf_iff_prefix.2 (List.prefix_append _ _))]
    cases hf : Text.find? (utf8 "*/") ((utf8 "/*" ++ (body ++ (utf8 "*/" ++ rest))).drop 2) with
    | none => exact absurd ⟨body, rest, List.append_assoc ..⟩ (find?_eq_none_iff.1 hf)
    | some i => simp

/-! ### The rules are told apart -/

theorem isNameStart_toNat {b : UInt8} (h : isNameStart b = true) :
    (97 ≤ b.toNat ∧ b.toNat ≤ 122) ∨ (65 ≤ b.toNat ∧ b.toNat ≤ 90) ∨ b.toNat = 95 ∨ b.toNat = 36 ∨
      b.toNat = 35 := by
  simp only [isNameStart, Bool.or_eq_true, Bool.and_eq_true, decide_eq_true_eq,
    UInt8.le_iff_toNat_le, ← UInt8.toNat_inj] at h
  simp only [UInt8.reduceToNat] at h
  omega

theorem isDigit_toNat {b : UInt8} (h : Text.isDigit b = true) : 48 ≤ b.toNat ∧ b.toNat ≤ 57 := by
  simp only [Text.isDigit, Bool.and_eq_true, decide_eq_true_eq, UInt8.le_iff_toNat_le] at h
  exact h

/-- What the rules of the table ask of the numbers of the first two bytes, each with its kind. -/
def fronts (n m : Nat) : List (Option Kind × Prop) :=
  [(none, (9 ≤ n ∧ n ≤ 13) ∨ n = 32 ∨ 128 ≤ n), (none, n = 47 ∧ m = 47), (none, n = 47 ∧ m = 42),
    (some .declare, n = 100), (some .function, n = 102), (some .return, n = 114),
    (some .const, n = 99), (some .semicolon, n = 59), (some .colon, n = 58),
    (some .openParen, n = 40), (some .closeParen, n = 41), (some .comma, n = 44),
    (some .assign, n = 61), (some .openBrace, n = 123), (some .closeBrace, n = 125),
    (some .openBracket, n = 91), (some .closeBracket, n = 93),
    (some .identifier, (97 ≤ n ∧ n ≤ 122) ∨ (65 ≤ n ∧ n ≤ 90) ∨ n = 95 ∨ n = 36 ∨ n = 35),
    (some .number, 48 ≤ n ∧ n ≤ 57), (some .string, n = 34), (some .string, n = 39)]

theorem fronts_apart (n m : Nat) : (fronts n m).Pairwise fun p q =>
    p.2 → q.2 → (∃ k ∈ Kind.keywords, p.1 = some k) ∧ q.1 = some .identifier := by
  simp [fronts, Kind.keywords, -not_and, -not_or]
  omega

theorem table_fronts (b : UInt8) (t : Text) :
    List.Forall₂ (fun r p => r.kind = p.1 ∧ (0 < r.accept (b :: t) → p.2)) table
      (fronts b.toNat (t.head?.getD 0).toNat) := by
  have comment {c d : UInt8} (h : ∃ u, [c, d] ++ u = b :: t) :
      b.toNat = c.toNat ∧ (t.head?.getD 0).toNat = d.toNat := by
    obtain ⟨u, hu⟩ := h
    obtain ⟨rfl, rfl⟩ := List.cons.inj hu
    exact ⟨rfl, rfl⟩
  have line (p : 0 < lineCommentLength (b :: t)) : b.toNat = 47 ∧ (t.head?.getD 0).toNat = 47 :=
    comment (lineCommentLength_pos_iff.1 p)
  have block (p : 0 < blockCommentLength (b :: t)) :
      b.toNat = 47 ∧ (t.head?.getD 0).toNat = 42 := by
    obtain ⟨body, hp⟩ := blockCommentLength_pos_iff.1 p
    rw [List.append_assoc] at hp
    exact comment ((List.prefix_append _ _).trans hp)
  have word (c : UInt8) (w : Text) (p : 0 < wordLength (c :: w) (b :: t)) : b.toNat = c.toNat := by
    rw [(List.cons_prefix_cons.1 ((wordLength_pos_iff (List.cons_ne_nil c w)).1 p)).1]
  have run (c : UInt8) (p : 0 < runLength c (b :: t)) : b.toNat = c.toNat :=
    congrArg _ (runLength_pos_iff.1 p)
  have byte (c : UInt8) (p : 0 < byteLength c (b :: t)) : b.toNat = c.toNat :=
    congrArg _ (byteLength_pos_iff.1 p)
  have quoted (q : UInt8) (p : 0 < quotedLength q (b :: t)) : b.toNat = q.toNat := by
    obtain ⟨v, hv⟩ := quotedLength_pos_iff.1 p
    rw [(List.cons_prefix_cons.1 hv).1]
  exact .cons ⟨rfl, layoutLength_first⟩ <| .cons ⟨rfl, line⟩ <| .cons ⟨rfl, block⟩ <|
    .cons ⟨rfl, word 100 _⟩ <| .cons ⟨rfl, word 102 _⟩ <| .cons ⟨rfl, word 114 _⟩ <|
    .cons ⟨rfl, word 99 _⟩ <| .cons ⟨rfl, run 59⟩ <| .cons ⟨rfl, run 58⟩ <|
    .cons ⟨rfl, byte 40⟩ <| .cons ⟨rfl, byte 41⟩ <| .cons ⟨rfl, byte 44⟩ <| .cons ⟨rfl, byte 61⟩ <|
    .cons ⟨rfl, byte 123⟩ <| .cons ⟨rfl, byte 125⟩ <| .cons ⟨rfl, byte 91⟩ <|
    .cons ⟨rfl, byte 93⟩ <|
    .cons ⟨rfl, fun p => isNameStart_toNat (nameLength_pos_iff.1 p)⟩ <|
    .cons ⟨rfl, fun p => isDigit_toNat (digitsLength_pos_iff.1 p)⟩ <|
    .cons ⟨rfl, quoted 34⟩ <| .cons ⟨rfl, quoted 39⟩ .nil

/-- The two rules do not both accept something of the text, unless the first is that of a keyword
and the second that of names. -/
def Apart (t : Text) (r r' : Rule) : Prop :=
  0 < r.accept t → 0 < r'.accept t →
    (∃ k ∈ Kind.keywords, r.kind = some k) ∧ r'.kind = some .identifier

/-- A relation between the elements of a list, told from what goes with them in another list. -/
theorem pairwise_of_forall₂ {α β : Type} {R : α → β → Prop} {S : β → β → Prop} {T : α → α → Prop}
    (hT : ∀ a a' b b', R a b → R a' b' → S b b' → T a a') {l : List α} {l' : List β}
    (h : List.Forall₂ R l l') (hS : l'.Pairwise S) : l.Pairwise T := by
  rw [List.forall₂_iff_get] at h
  rw [List.pairwise_iff_getElem] at hS ⊢
  intro i j hi hj hij
  have hi' : i < l'.length := h.1 ▸ hi
  have hj' : j < l'.length := h.1 ▸ hj
  exact hT _ _ _ _ (h.2 i hi hi') (h.2 j hj hj') (hS i j hi' hj' hij)

theorem accept_nil : ∀ r ∈ table, r.accept [] = 0 := by
  simp only [table, Kind.keywords, List.map_cons, List.map_nil, List.cons_append, List.nil_append,
    List.forall_mem_cons, List.not_mem_nil, false_imp_iff, implies_true, and_true]
  exact ⟨layoutLength_nil, rfl, rfl, rfl, rfl, rfl, rfl, rfl, rfl, rfl, rfl, rfl, rfl, rfl, rfl,
    rfl, rfl, rfl, rfl, rfl, rfl⟩

/-- **The rules are told apart** by the front of the text. -/
theorem table_apart (t : Text) : table.Pairwise (Apart t) := by
  cases t with
  | nil =>
    refine List.pairwise_of_forall_mem_list fun r hr r' _ h => ?_
    rw [accept_nil r hr] at h
    omega
  | cons b t =>
    refine pairwise_of_forall₂ ?_ (table_fronts b t) (fronts_apart _ _)
    intro r r' p p' hr hr' h a a'
    rw [hr.1, hr'.1]
    exact h (hr.2 a) (hr'.2 a')

end Rule

/-! ### The first match -/

theorem firstMatch?_eq_some {rules : List Rule} {t : Text} {m : Match}
    (h : firstMatch? rules t = some m) : ∃ r ∈ rules, m.kind = r.kind ∧ m.length = r.accept t := by
  obtain ⟨r, hr, h⟩ := List.exists_of_findSome?_eq_some h
  split at h
  · cases h
    exact ⟨r, hr, rfl, rfl⟩
  · cases h

theorem firstMatch?_eq_none_iff {rules : List Rule} {t : Text} :
    firstMatch? rules t = none ↔ ∀ r ∈ rules, r.accept t = 0 := by
  simp only [firstMatch?, List.findSome?_eq_none_iff]
  refine forall₂_congr fun r _ => ?_
  split <;> simp <;> omega

/-- A rule of a list whose rules are told apart is the one that is taken, if it accepts something
and no keyword is in its way. -/
theorem firstMatch?_of_mem {rules : List Rule} {t : Text} (apart : rules.Pairwise (Rule.Apart t))
    {r : Rule} (hr : r ∈ rules) (h : 0 < r.accept t)
    (hk : r.kind = some .identifier → ∀ k ∈ Kind.keywords, ∀ r' ∈ rules, r'.kind = some k →
      r'.accept t = 0) :
    firstMatch? rules t = some ⟨r.kind, r.accept t, h⟩ := by
  obtain ⟨before, after, rfl⟩ := List.append_of_mem hr
  refine List.findSome?_eq_some_iff.2 ⟨before, r, after, rfl, dif_pos h,
    fun x hx => dif_neg fun hx' => ?_⟩
  have hxr := (List.pairwise_append.1 apart).2.2 x hx r List.mem_cons_self hx' h
  obtain ⟨⟨k, hk', hxk⟩, hr'⟩ := hxr
  have := hk hr' k hk' x (List.mem_append_left _ hx) hxk
  omega

/-- No keyword stands at the front of a name, also with what follows the name. -/
theorem IsName.not_keyword_prefix {w rest : Text} (h : IsName w) (hs : Stops .identifier rest)
    {k : Kind} (hk : k ∈ Kind.keywords) : ¬ k.spelling <+: w ++ rest := by
  have letters : Kind.keywords.all (fun k => k.spelling.all Rule.isNamePart) = true := by decide
  have letter {c : UInt8} (hc : c ∈ k.spelling) : Rule.isNamePart c = true :=
    List.all_eq_true.1 (List.all_eq_true.1 letters k hk) c hc
  intro hp
  rcases List.prefix_or_prefix_of_prefix hp (List.prefix_append w rest) with hw | ⟨u, hu⟩
  · exact h.keyword k hk hw
  · cases u with
    | nil => exact h.keyword k hk ⟨[], by simp [← hu]⟩
    | cons c u =>
      -- the keyword goes on after the name, so the name goes on too
      rw [← hu, List.prefix_append_right_inj] at hp
      obtain ⟨v, rfl⟩ := hp
      have := hs c rfl
      rw [Kind.continues, letter (by simp [← hu])] at this
      cases this

/-! ### The families of the table -/

namespace Rule

/-- The signs that may be repeated, with their bytes. -/
def runs : List (Kind × UInt8) := [(.semicolon, 59), (.colon, 58)]

/-- The signs that are one byte, with it. -/
def signs : List (Kind × UInt8) :=
  [(.openParen, 40), (.closeParen, 41), (.comma, 44), (.assign, 61), (.openBrace, 123),
    (.closeBrace, 125), (.openBracket, 91), (.closeBracket, 93)]

/-- The table by families: a rule is of what is passed over, a keyword, a sign, or a literal. -/
theorem forall_mem_table {P : Rule → Prop} :
    (∀ r ∈ table, P r) ↔
      (P ⟨utf8 "whitespace", none, layoutLength⟩ ∧
        P ⟨utf8 "line comment", none, lineCommentLength⟩ ∧
        P ⟨utf8 "block comment", none, blockCommentLength⟩) ∧
      (∀ k ∈ Kind.keywords, P (keyword k)) ∧ (∀ p ∈ runs, P (repeated p.1 p.2)) ∧
      (∀ p ∈ signs, P (sign p.1 p.2)) ∧
      P ⟨utf8 "identifier", some .identifier, nameLength⟩ ∧
        P ⟨utf8 "number", some .number, digitsLength⟩ ∧
      P ⟨utf8 "double-quoted string", some .string, quotedLength 34⟩ ∧
      P ⟨utf8 "single-quoted string", some .string, quotedLength 39⟩ := by
  simp only [table, runs, signs, List.forall_mem_append, List.forall_mem_cons, List.forall_mem_map,
    List.not_mem_nil, false_imp_iff, implies_true, and_true, and_assoc]

theorem mem_table_of_keyword {k : Kind} (h : k ∈ Kind.keywords) : keyword k ∈ table :=
  (forall_mem_table.1 fun _ hr => hr).2.1 k h

theorem mem_table_of_run {p : Kind × UInt8} (h : p ∈ runs) : repeated p.1 p.2 ∈ table :=
  (forall_mem_table.1 fun _ hr => hr).2.2.1 p h

theorem mem_table_of_sign {p : Kind × UInt8} (h : p ∈ signs) : sign p.1 p.2 ∈ table :=
  (forall_mem_table.1 fun _ hr => hr).2.2.2.1 p h

end Rule

theorem lexeme_keyword_iff {k : Kind} (hk : k ∈ Kind.keywords) {w : Text} :
    Lexeme k w ↔ w = k.spelling := by
  simp only [Kind.keywords, List.mem_cons, List.not_mem_nil, or_false] at hk
  rcases hk with rfl | rfl | rfl | rfl <;> rfl

theorem lexeme_run_iff {p : Kind × UInt8} (hp : p ∈ Rule.runs) {w : Text} :
    Lexeme p.1 w ↔ w ≠ [] ∧ ∀ b ∈ w, b = p.2 := by
  simp only [Rule.runs, List.mem_cons, List.not_mem_nil, or_false] at hp
  rcases hp with rfl | rfl <;> rfl

theorem lexeme_sign_iff {p : Kind × UInt8} (hp : p ∈ Rule.signs) {w : Text} :
    Lexeme p.1 w ↔ w = [p.2] := by
  simp only [Rule.signs, List.mem_cons, List.not_mem_nil, or_false] at hp
  rcases hp with rfl | rfl | rfl | rfl | rfl | rfl | rfl | rfl <;> rfl

theorem stops_keyword {k : Kind} (hk : k ∈ Kind.keywords) (t : Text) : Stops k t := by
  have : ∀ k ∈ Kind.keywords, ∀ b, k.continues b = false := by simp [Kind.keywords, Kind.continues]
  exact fun b _ => this k hk b

theorem stops_sign {p : Kind × UInt8} (hp : p ∈ Rule.signs) (t : Text) : Stops p.1 t := by
  have : ∀ p ∈ Rule.signs, ∀ b, p.1.continues b = false := by simp [Rule.signs, Kind.continues]
  exact fun b _ => this p hp b

theorem stops_run_iff {p : Kind × UInt8} (hp : p ∈ Rule.runs) {t : Text} :
    Stops p.1 t ↔ ∀ b ∈ t.head?, b ≠ p.2 := by
  simp only [Rule.runs, List.mem_cons, List.not_mem_nil, or_false] at hp
  rcases hp with rfl | rfl <;> simp [Stops, Kind.continues]

/-! ### Lexemes and the table -/

theorem spelling_ne_nil {k : Kind} (hk : k ∈ Kind.keywords) : k.spelling ≠ [] :=
  (by decide : ∀ k ∈ Kind.keywords, k.spelling ≠ []) k hk

theorem accept_keyword {k : Kind} (hk : k ∈ Kind.keywords) (t : Text) :
    ∀ r ∈ Rule.table, r.kind = some k → r.accept t = Rule.wordLength k.spelling t := by
  have other {k' : Kind} {n : Nat} (hk' : k' ∉ Kind.keywords) (h : some k' = some k) :
      n = Rule.wordLength k.spelling t := absurd (Option.some.inj h ▸ hk) hk'
  refine Rule.forall_mem_table.2 ⟨⟨nofun, nofun, nofun⟩, ?_, ?_, ?_, other (by decide),
    other (by decide), other (by decide), other (by decide)⟩
  · intro k' _ h
    cases h
    rfl
  · exact fun p hp => other ((by decide : ∀ p ∈ Rule.runs, p.1 ∉ Kind.keywords) p hp)
  · exact fun p hp => other ((by decide : ∀ p ∈ Rule.signs, p.1 ∉ Kind.keywords) p hp)

/-- What a rule accepts is a lexeme of its kind that ends there; a name if no keyword stands
there. -/
theorem exists_lexeme_of_accept {t : Text} {k : Kind}
    (hw : k = .identifier → ∀ k ∈ Kind.keywords, ¬ k.spelling <+: t) :
    ∀ r ∈ Rule.table, r.kind = some k → 0 < r.accept t →
      ∃ w rest, t = w ++ rest ∧ Lexeme k w ∧ Stops k rest ∧ w.length = r.accept t := by
  have quoted {q : UInt8} (hq : IsQuote q) (h : 0 < Rule.quotedLength q t) :
      ∃ w rest, t = w ++ rest ∧ Lexeme .string w ∧ Stops .string rest ∧
        w.length = Rule.quotedLength q t := by
    obtain ⟨w, rest, e, ⟨v, hv, hl⟩, hn⟩ := (Rule.accepts_quoted q).eq_append h
    exact ⟨w, rest, e, ⟨v, q, hq, hv, hl⟩, fun _ _ => rfl, hn⟩
  refine Rule.forall_mem_table.2 ⟨⟨nofun, nofun, nofun⟩, ?_, ?_, ?_, ?_, ?_, ?_, ?_⟩
  · rintro _ hk ⟨⟩ h
    obtain ⟨w, rest, e, hl, hn⟩ := (Rule.accepts_word (spelling_ne_nil hk)).eq_append h
    exact ⟨w, rest, e, (lexeme_keyword_iff hk).2 hl, stops_keyword hk rest, hn⟩
  · rintro p hp ⟨⟩ h
    obtain ⟨w, rest, e, ⟨hl, hs⟩, hn⟩ := (Rule.accepts_run p.2).eq_append h
    have hne : w ≠ [] := by rw [← List.length_pos_iff, hn]; exact h
    exact ⟨w, rest, e, (lexeme_run_iff hp).2 ⟨hne, hl⟩, (stops_run_iff hp).2 hs, hn⟩
  · rintro p hp ⟨⟩ h
    obtain ⟨w, rest, e, hl, hn⟩ := (Rule.accepts_byte p.2).eq_append h
    exact ⟨w, rest, e, (lexeme_sign_iff hp).2 hl, stops_sign hp rest, hn⟩
  · rintro ⟨⟩ h
    obtain ⟨w, rest, rfl, ⟨hstart, hparts, hs⟩, hn⟩ := Rule.accepts_name.eq_append h
    have hkeyword : ∀ k ∈ Kind.keywords, ¬ k.spelling <+: w :=
      fun k hk hp => hw rfl k hk (hp.trans (List.prefix_append w rest))
    exact ⟨w, rest, rfl, ⟨hstart, hparts, hkeyword⟩, hs, hn⟩
  · rintro ⟨⟩ h
    obtain ⟨w, rest, e, ⟨hl, hs⟩, hn⟩ := Rule.accepts_digits.eq_append h
    have hne : w ≠ [] := by rw [← List.length_pos_iff, hn]; exact h
    exact ⟨w, rest, e, ⟨hne, hl⟩, hs, hn⟩
  · rintro ⟨⟩ h
    exact quoted (.inl rfl) h
  · rintro ⟨⟩ h
    exact quoted (.inr rfl) h

/-- Where a lexeme of a kind stands and ends, a rule of that kind accepts it. -/
theorem exists_rule_of_lexeme {k : Kind} {w rest : Text} (h : Lexeme k w) (hs : Stops k rest) :
    ∃ r ∈ Rule.table, r.kind = some k ∧ r.accept (w ++ rest) = w.length := by
  have hpos : 0 < w.length := List.length_pos_iff.2 h.ne_nil
  have literals := (Rule.forall_mem_table.1 fun r (hr : r ∈ Rule.table) => hr).2.2.2.2
  have word {k : Kind} (hk : k ∈ Kind.keywords) (h : Lexeme k w) :
      ∃ r ∈ Rule.table, r.kind = some k ∧ r.accept (w ++ rest) = w.length := by
    have hw := (lexeme_keyword_iff hk).1 h
    exact ⟨_, Rule.mem_table_of_keyword hk, rfl,
      (Rule.accepts_word (hw ▸ h.ne_nil) _ _ hpos).2 ⟨w, rest, rfl, hw, rfl⟩⟩
  have run {p : Kind × UInt8} (hp : p ∈ Rule.runs) (h : Lexeme p.1 w) (hs : Stops p.1 rest) :
      ∃ r ∈ Rule.table, r.kind = some p.1 ∧ r.accept (w ++ rest) = w.length :=
    ⟨_, Rule.mem_table_of_run hp, rfl, (Rule.accepts_run p.2 _ _ hpos).2
      ⟨w, rest, rfl, ⟨((lexeme_run_iff hp).1 h).2, (stops_run_iff hp).1 hs⟩, rfl⟩⟩
  have sign {p : Kind × UInt8} (hp : p ∈ Rule.signs) (h : Lexeme p.1 w) :
      ∃ r ∈ Rule.table, r.kind = some p.1 ∧ r.accept (w ++ rest) = w.length :=
    ⟨_, Rule.mem_table_of_sign hp, rfl,
      (Rule.accepts_byte p.2 _ _ hpos).2 ⟨w, rest, rfl, (lexeme_sign_iff hp).1 h, rfl⟩⟩
  cases k with
  | endOfInput => exact h.elim
  | number =>
    exact ⟨_, literals.2.1, rfl, (Rule.accepts_digits _ _ hpos).2 ⟨w, rest, rfl, ⟨h.2, hs⟩, rfl⟩⟩
  | string =>
    obtain ⟨v, q, hq, hv, hw⟩ := h
    have accepted := (Rule.accepts_quoted q _ _ hpos).2 ⟨w, rest, rfl, ⟨v, hv, hw⟩, rfl⟩
    rcases hq with rfl | rfl
    · exact ⟨_, literals.2.2.1, rfl, accepted⟩
    · exact ⟨_, literals.2.2.2, rfl, accepted⟩
  | identifier =>
    exact ⟨_, literals.1, rfl,
      (Rule.accepts_name _ _ hpos).2 ⟨w, rest, rfl, ⟨h.start, h.parts, hs⟩, rfl⟩⟩
  | declare => exact word (by decide) h
  | function => exact word (by decide) h
  | «return» => exact word (by decide) h
  | const => exact word (by decide) h
  | semicolon => exact run (p := (.semicolon, 59)) (by decide) h hs
  | colon => exact run (p := (.colon, 58)) (by decide) h hs
  | assign => exact sign (p := (.assign, 61)) (by decide) h
  | openParen => exact sign (p := (.openParen, 40)) (by decide) h
  | closeParen => exact sign (p := (.closeParen, 41)) (by decide) h
  | openBrace => exact sign (p := (.openBrace, 123)) (by decide) h
  | closeBrace => exact sign (p := (.closeBrace, 125)) (by decide) h
  | openBracket => exact sign (p := (.openBracket, 91)) (by decide) h
  | closeBracket => exact sign (p := (.closeBracket, 93)) (by decide) h
  | comma => exact sign (p := (.comma, 44)) (by decide) h

/-- **Tokens are lexemes**: the table makes a token of the first `n` bytes exactly where they are a
lexeme of its kind that ends there. -/
theorem firstMatch?_token_iff {t : Text} {k : Kind} {n : Nat} (hn : 0 < n) :
    firstMatch? Rule.table t = some ⟨some k, n, hn⟩ ↔
      ∃ w rest, t = w ++ rest ∧ Lexeme k w ∧ Stops k rest ∧ w.length = n := by
  constructor
  · intro h
    obtain ⟨r, hr, hk, hl⟩ := firstMatch?_eq_some h
    dsimp only at hk hl
    rw [hl]
    refine exists_lexeme_of_accept ?_ r hr hk.symm (hl ▸ hn)
    -- a keyword at the front would have been taken instead of the name
    rintro rfl k hk' hp
    have hpos : 0 < (Rule.keyword k).accept t :=
      (Rule.wordLength_pos_iff (spelling_ne_nil hk')).2 hp
    have hid : k ≠ .identifier := fun e => absurd (e ▸ hk') (by decide)
    rw [firstMatch?_of_mem (Rule.table_apart t) (Rule.mem_table_of_keyword hk') hpos
      fun e => absurd (Option.some.inj e) hid] at h
    simp only [Option.some.injEq, Match.mk.injEq] at h
    exact hid (Option.some.inj h.1)
  · rintro ⟨w, rest, rfl, hl, hs, rfl⟩
    obtain ⟨r, hr, hk, ha⟩ := exists_rule_of_lexeme hl hs
    have hpos : 0 < r.accept (w ++ rest) := ha ▸ hn
    rw [firstMatch?_of_mem (Rule.table_apart _) hr hpos]
    · simp [hk, ha]
    · intro hid k' hk' r' hr' hkind
      obtain rfl : k = .identifier := Option.some.inj (hk.symm.trans hid)
      rw [accept_keyword hk' _ r' hr' hkind]
      refine Nat.eq_zero_of_not_pos fun hw => ?_
      exact IsName.not_keyword_prefix hl hs hk'
        ((Rule.wordLength_pos_iff (spelling_ne_nil hk')).1 hw)

end Scriptlet
