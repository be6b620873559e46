import Mathlib.Data.List.Forall2
import Scriptlet.Proofs.JsonScalar
import Scriptlet.Proofs.Quoted
import Scriptlet.Toml.Document

/-!
# Tables written as TOML

A table is written as its header and a line for each of its fields; after it comes the end of a
line, and then maybe another table. Numbers and portable texts are values that are read back
(`reads_ofNat`, `value_quoted`), a line is read as its pair (`reads_pair`), and a document as its
tables (`expressions_document`), which hold the fields that were written (`ofEntries_flatten`). A
line whose value cannot be read is read as nothing, and with it the whole text is no TOML
(`expressions_of_line`).
-/

namespace Scriptlet.Toml

open JsonValue (Reads)

variable {total : Nat}

/-! ### Values -/

theorem reads_take {α : Type} {w : Text} (hw : w ≠ []) (a : α) (u : Text) :
    ∃ h, Parsed.take? w.length a (w ++ u) = some ⟨a, u, h⟩ := by
  have hpos := List.length_pos_iff.2 hw
  refine ⟨by rw [List.length_append]; omega, ?_⟩
  rw [Parsed.take?, dif_pos ⟨hpos, by rw [List.length_append]; omega⟩]
  simp

theorem digitRun_cons (b : UInt8) (t : Text) (hb : b ≠ 95) :
    digitRun (b :: t) = if Text.isDigit b then digitRun t + 1 else 0 := by
  rw [digitRun]
  exact fun _ _ h => absurd h hb

theorem digitRun_append {ds : Text} (h : ∀ b ∈ ds, Text.isDigit b = true) (u : Text) :
    digitRun (ds ++ Text.lineFeed :: u) = ds.length := by
  induction ds with
  | nil =>
    rw [List.nil_append, digitRun_cons _ _ (by decide)]
    rfl
  | cons b ds ih =>
    obtain ⟨hb, hds⟩ := List.forall_mem_cons.1 h
    have hne : b ≠ 95 := by
      rintro rfl
      cases hb
    rw [List.cons_append, digitRun_cons _ _ hne, if_pos hb, ih hds, List.length_cons]

theorem unsignedLength_ofNat (n : Nat) (u : Text) :
    unsignedLength (Text.ofNat n ++ Text.lineFeed :: u) = (Text.ofNat n).length := by
  by_cases hn : n = 0
  · subst hn
    rfl
  · have hleading := Text.isLeading_ofNat hn
    obtain ⟨b, ds, e⟩ := List.exists_cons_of_ne_nil hleading.digits.1
    rw [e] at hleading ⊢
    obtain ⟨hb, hds⟩ := List.forall_mem_cons.1 hleading.digits.2
    have hne : b ≠ 48 := fun h => hleading.head (congrArg some h)
    rw [List.cons_append, unsignedLength, if_pos hb, if_neg hne, digitRun_append hds,
      List.length_cons]

theorem integerLength_ofNat (n : Nat) (u : Text) :
    integerLength (Text.ofNat n ++ Text.lineFeed :: u) = (Text.ofNat n).length := by
  obtain ⟨hne, hdigits⟩ := Text.isDigits_ofNat n
  have hsign : signLength (Text.ofNat n ++ Text.lineFeed :: u) = 0 := by
    obtain ⟨b, ds, e⟩ := List.exists_cons_of_ne_nil hne
    have hb := Rule.isDigit_toNat (hdigits b (by rw [e]; exact List.mem_cons_self))
    rw [e, List.cons_append, signLength, if_neg]
    rintro h
    simp only [Bool.or_eq_true, decide_eq_true_eq] at h
    rcases h with rfl | rfl <;> simp at hb
  have hpos := List.length_pos_iff.2 hne
  rw [integerLength, hsign, List.drop_zero, unsignedLength_ofNat, if_neg (by omega), Nat.zero_add]

/-- Decimal digits up to the end of the line are read as an integer. -/
theorem reads_number (n : Nat) (u : Text) :
    Reads number (Text.ofNat n ++ Text.lineFeed :: u) (.integer (Text.ofNat n))
      (Text.lineFeed :: u) := by
  obtain ⟨hne, hdigits⟩ := Text.isDigits_ofNat n
  have hpos := List.length_pos_iff.2 hne
  have hfilter : (Text.ofNat n).filter (· != 95) = Text.ofNat n := by
    rw [List.filter_eq_self]
    intro b hb
    have := Rule.isDigit_toNat (hdigits b hb)
    simp only [bne_iff_ne, ne_eq]
    rintro rfl
    simp at this
  have hfraction : fractionLength (Text.lineFeed :: u) = 0 := rfl
  have hexponent : exponentLength (Text.lineFeed :: u) = 0 := rfl
  simp only [Reads, number, integerLength_ofNat, if_neg (Nat.ne_of_gt hpos), List.drop_left,
    hfraction, hexponent, Nat.add_zero, if_true, List.take_left, hfilter]
  exact reads_take hne _ _

theorem basicString?_quoted (s u : Text) :
    basicString? (Text.quoted s ++ u) = if s.isPortable then some (some s, (Text.quoted s).length)
      else none := by
  have hquoted : Text.quoted s ++ u = 34 :: (Text.inQuotes s ++ 34 :: u) := by simp [Text.quoted_eq]
  rw [hquoted, basicString?, stringBody?_inQuotes]
  split
  · simp [Text.quoted_eq]
  · rfl

/-- What is quoted up to the end of a line does not begin with three quotes. -/
theorem longString?_quoted (s u : Text) :
    longString? (Text.quoted s ++ Text.lineFeed :: u) = none := by
  have hquoted : Text.quoted s ++ Text.lineFeed :: u =
      34 :: (Text.inQuotes s ++ 34 :: Text.lineFeed :: u) := by
    simp [Text.quoted_eq]
  rw [hquoted]
  have hhead := Text.head?_inQuotes s
  cases hin : Text.inQuotes s with
  | nil => rfl
  | cons b w =>
    rw [hin, List.head?_cons] at hhead
    rw [longString?]
    intro t h
    exact hhead (congrArg some (List.cons.inj (List.cons.inj h).2).1)

/-- Of a portable text, what is quoted is read as the text; of another, it is not read. -/
theorem string_quoted (total : Nat) (s u : Text) :
    if s.isPortable then
      Reads (string total) (Text.quoted s ++ Text.lineFeed :: u) (.ok (.string s))
        (Text.lineFeed :: u)
    else string total (Text.quoted s ++ Text.lineFeed :: u) = none := by
  have hliteral : (longLiteral? (Text.quoted s ++ Text.lineFeed :: u) <|>
      literalString? (Text.quoted s ++ Text.lineFeed :: u)) = none := rfl
  have hfound : (longString? (Text.quoted s ++ Text.lineFeed :: u) <|>
      basicString? (Text.quoted s ++ Text.lineFeed :: u)) =
        if s.isPortable then some (some s, (Text.quoted s).length) else none := by
    rw [longString?_quoted, ← basicString?_quoted s (Text.lineFeed :: u)]
    rfl
  split
  · rename_i hs
    rw [if_pos hs] at hfound
    obtain ⟨h, htake⟩ :=
      reads_take (w := Text.quoted s) (List.cons_ne_nil _ _) (.ok s : Readable Text)
        (Text.lineFeed :: u)
    refine ⟨h, ?_⟩
    simp only [string, hliteral, hfound, readString, htake]
    rfl
  · rename_i hs
    rw [if_neg hs] at hfound
    simp only [string, hliteral, hfound, readString, Option.map_none]

/-- Digits up to the end of the line do not fit a pattern with another sign behind its first
digits. -/
theorem fits_digits {ds : Text} (h : ∀ b ∈ ds, Text.isDigit b = true) {p : UInt8} (hzero : p ≠ 48)
    (hdigit : Text.isDigit p = false) (hbreak : p ≠ Text.lineFeed) (n : Nat) (ps u : Text) :
    fits (List.replicate n 48 ++ p :: ps) (ds ++ Text.lineFeed :: u) = false := by
  induction n generalizing ds with
  | zero =>
    cases ds with
    | nil => simp [fits, hzero, Ne.symm hbreak]
    | cons d ds =>
      have hne : d ≠ p := by
        rintro rfl
        exact absurd (h d List.mem_cons_self) (by simp [hdigit])
      simp [fits, hzero, hne]
  | succ n ih =>
    cases ds with
    | nil => rfl
    | cons d ds =>
      obtain ⟨hd, hds⟩ := List.forall_mem_cons.1 h
      rw [List.replicate_succ, List.cons_append, List.cons_append, fits, ih hds, Bool.and_false]

theorem datetime_ofNat (n : Nat) (u : Text) :
    datetime (Text.ofNat n ++ Text.lineFeed :: u) = none := by
  obtain ⟨-, hdigits⟩ := Text.isDigits_ofNat n
  have hdate : fits (utf8 "0000-00-00") (Text.ofNat n ++ Text.lineFeed :: u) = false :=
    fits_digits hdigits (p := 45) (by decide) rfl (by decide) 4 (utf8 "00-00") u
  have htime : fits (utf8 "00:00:00") (Text.ofNat n ++ Text.lineFeed :: u) = false :=
    fits_digits hdigits (p := 58) (by decide) rfl (by decide) 2 (utf8 "00:00") u
  rw [datetime, hdate, timeLength, htime]
  rfl

/-- Neither an array nor an inline table begins with a quote. -/
theorem exists_valueWith (total depth : Nat) (inArray : Bool) (key : Text) :
    ∃ array table, value total depth inArray key = valueWith total array table ∧
      ∀ t, array (34 :: t) = none ∧ table (34 :: t) = none := by
  cases depth with
  | zero => exact ⟨_, _, rfl, fun _ => ⟨rfl, rfl⟩⟩
  | succ depth => exact ⟨_, _, rfl, fun _ => ⟨rfl, rfl⟩⟩

/-- A number up to the end of the line is a value. -/
theorem reads_ofNat (n depth : Nat) (inArray : Bool) (key u : Text) :
    Reads (value total depth inArray key) (Text.ofNat n ++ Text.lineFeed :: u)
      ⟨[], some (.integer (Text.ofNat n))⟩ (Text.lineFeed :: u) := by
  obtain ⟨array, table, hvalue, -⟩ := exists_valueWith total depth inArray key
  obtain ⟨h, hnumber⟩ := reads_number n u
  refine ⟨h, ?_⟩
  rw [hvalue, valueWith, datetime_ofNat, hnumber]
  rfl

/-- A portable text between quotes is a value; of another text, what is quoted is none. -/
theorem value_quoted (total depth : Nat) (inArray : Bool) (key s u : Text) :
    if s.isPortable then
      Reads (value total depth inArray key) (Text.quoted s ++ Text.lineFeed :: u)
        ⟨[], some (.string s)⟩
        (Text.lineFeed :: u)
    else value total depth inArray key (Text.quoted s ++ Text.lineFeed :: u) = none := by
  obtain ⟨array, table, hvalue, hquote⟩ := exists_valueWith total depth inArray key
  have hdatetime : datetime (Text.quoted s ++ Text.lineFeed :: u) = none := rfl
  have hnumber : number (Text.quoted s ++ Text.lineFeed :: u) = none := rfl
  have hstring := string_quoted total s u
  split
  · rename_i hs
    rw [if_pos hs] at hstring
    obtain ⟨h, hstring⟩ := hstring
    refine ⟨h, ?_⟩
    rw [hvalue, valueWith, hdatetime, hnumber, hstring]
    rfl
  · rename_i hs
    rw [if_neg hs] at hstring
    have hboolean : boolean (Text.quoted s ++ Text.lineFeed :: u) = none := rfl
    obtain ⟨harray, htable⟩ : array (Text.quoted s ++ Text.lineFeed :: u) = none ∧
      table (Text.quoted s ++ Text.lineFeed :: u) = none := hquote _
    rw [hvalue, valueWith, hdatetime, hnumber, hstring, hboolean, harray, htable]
    rfl

/-! ### Lines -/

/-- A key that needs no quotes. -/
def IsKey (k : Text) : Prop := k ≠ [] ∧ ∀ b ∈ k, isKeyByte b = true

theorem isKeyByte_toNat {b : UInt8} (h : isKeyByte b = true) :
    45 ≤ b.toNat ∧ b.toNat ≠ 61 ∧ b.toNat ≠ 91 := by
  simp only [isKeyByte, Text.isDigit, Bool.or_eq_true, Bool.and_eq_true, decide_eq_true_eq,
    UInt8.le_iff_toNat_le, ← UInt8.toNat_inj] at h
  simp only [UInt8.reduceToNat] at h
  omega

/-- A key is read up to a byte that may not stand in it. -/
theorem IsKey.reads (total : Nat) {k : Text} (hk : IsKey k) {b : UInt8} (hb : isKeyByte b = false)
    (u : Text) : Reads (key total) (k ++ b :: u) (.ok k) (b :: u) := by
  obtain ⟨x, w, rfl⟩ := List.exists_cons_of_ne_nil hk.1
  have hx := isKeyByte_toNat (hk.2 x List.mem_cons_self)
  have hstart : Text.startsWith (x :: w ++ b :: u) [34] = false := by
    simp only [Text.startsWith, List.cons_append, List.isPrefixOf_cons_cons,
      List.isPrefixOf_nil_left, Bool.and_true, beq_eq_false_iff_ne]
    rintro rfl
    simp at hx
  have htake : (x :: w ++ b :: u).takeWhile isKeyByte = x :: w := by
    rw [List.takeWhile_append_of_pos hk.2, List.takeWhile_cons_of_neg (by simp [hb]),
      List.append_nil]
  simp only [Reads, key, hstart, htake]
  exact reads_take hk.1 _ _

theorem skipSpaces_cons {b : UInt8} (hb : isSpace b = false) (t : Text) :
    skipSpaces (b :: t) = b :: t :=
  List.dropWhile_cons_of_neg (by simp [hb])

/-- Behind a key and the sign, the value decides. -/
theorem pair_of_key {t rest u k : Text} {h : rest.length < t.length}
    (hkey : key total t = some ⟨.ok k, rest, h⟩) (hrest : skipSpaces rest = 61 :: u) :
    ∃ hle, pair total t = (value total t.length false k (skipSpaces u)).map fun p =>
      (p.map fun c => c.entries ++
        (c.value?.map (Entry.pair (lineAt total p.rest) k)).toList).weaken hle := by
  have hle : (skipSpaces u).length ≤ t.length := by
    have h₁ := length_skipSpaces rest
    have h₂ := length_skipSpaces u
    rw [hrest, List.length_cons] at h₁
    omega
  refine ⟨hle, ?_⟩
  rw [pair, pairWith]
  simp only [hkey]
  split
  · rename_i v hv
    obtain rfl := (List.cons.inj (hrest.symm.trans hv)).2
    rfl
  · rename_i hne
    exact absurd hrest (hne u)

/-- A key and a value, with the sign between them. -/
def line (k w : Text) : Text := k ++ utf8 " = " ++ w

theorem line_append (k w u : Text) : line k w ++ u = k ++ 32 :: (61 :: 32 :: (w ++ u)) := by
  simp only [line, List.append_assoc]
  rfl

/-- The text `w` does not begin with a space. -/
def BeginsAtOnce (w : Text) : Prop := ∃ b t, w = b :: t ∧ isSpace b = false

theorem skipSpaces_space {w : Text} (hw : BeginsAtOnce w) (u : Text) :
    skipSpaces (32 :: (w ++ u)) = w ++ u := by
  obtain ⟨b, t, rfl, hb⟩ := hw
  exact skipSpaces_cons hb (t ++ u)

/-- A line with a value that is read is a pair. -/
theorem reads_pair {k w u rest : Text} {v : Value} (hk : IsKey k) (hw : BeginsAtOnce w)
    (hv : ∀ depth, Reads (value total depth false k) (w ++ u) ⟨[], some v⟩ rest) :
    Reads (pair total) (line k w ++ u) [.pair (lineAt total rest) k v] rest := by
  obtain ⟨h, hkey⟩ := hk.reads total (b := 32) rfl (61 :: 32 :: (w ++ u))
  obtain ⟨hle, hpair⟩ := pair_of_key hkey rfl
  rw [← skipSpaces_space hw] at hv
  obtain ⟨h', hvalue⟩ := hv (k ++ 32 :: 61 :: 32 :: (w ++ u)).length
  rw [hvalue] at hpair
  rw [line_append]
  exact ⟨_, hpair⟩

/-- A line with a value that is not read is no pair. -/
theorem pair_eq_none {k w u : Text} (hk : IsKey k) (hw : BeginsAtOnce w)
    (hv : ∀ depth, value total depth false k (w ++ u) = none) :
    pair total (line k w ++ u) = none := by
  obtain ⟨h, hkey⟩ := hk.reads total (b := 32) rfl (61 :: 32 :: (w ++ u))
  obtain ⟨hle, hpair⟩ := pair_of_key hkey rfl
  rw [← skipSpaces_space hw] at hv
  rw [hv] at hpair
  rw [line_append]
  exact hpair

/-! ### Tables -/

/-- A field of a table, as it is written. -/
structure Line where
  /-- The key. -/
  key : Text
  /-- The value as it is written. -/
  text : Text
  /-- The value. -/
  value : Value
  isKey : IsKey key
  begins : BeginsAtOnce text
  reads : ∀ total depth u, Reads (Toml.value total depth false key) (text ++ Text.lineFeed :: u)
    ⟨[], some value⟩ (Text.lineFeed :: u)

/-- The line of the field. -/
def Line.written (l : Line) : Text := line l.key l.text

/-- The entry is the field, on some line. -/
def Line.Makes (l : Line) (e : Entry) : Prop := ∃ n, e = .pair n l.key l.value

/-- Lines of a table, each after the end of the line before. -/
def writtenLines (ls : List Line) : Text := ls.flatMap fun l => Text.lineFeed :: l.written

theorem writtenLines_nil : writtenLines [] = [] := rfl

theorem writtenLines_cons (l : Line) (ls : List Line) :
    writtenLines (l :: ls) = Text.lineFeed :: (l.written ++ writtenLines ls) := by
  rw [writtenLines, List.flatMap_cons, List.cons_append]
  rfl

/-- What comes after a header or a line begins with the end of the line. -/
theorem exists_lineFeed (ls : List Line) (rest : Text) :
    ∃ u, writtenLines ls ++ Text.lineFeed :: rest = Text.lineFeed :: u := by
  cases ls with
  | nil => exact ⟨rest, rfl⟩
  | cons => exact ⟨_, rfl⟩

/-- A key begins with neither a space nor the end of a line. -/
theorem IsKey.exists_cons {k : Text} (hk : IsKey k) :
    ∃ b t, k = b :: t ∧ isSpace b = false ∧ isBreak b = false := by
  obtain ⟨b, t, rfl⟩ := List.exists_cons_of_ne_nil hk.1
  have hb := isKeyByte_toNat (hk.2 b List.mem_cons_self)
  refine ⟨b, t, rfl, ?_⟩
  simp only [isSpace, isBreak, Bool.or_eq_false_iff, decide_eq_false_iff_not, ← UInt8.toNat_inj]
  simp only [UInt8.reduceToNat]
  omega

theorem IsKey.skipLayout_append {k : Text} (hk : IsKey k) (u : Text) :
    skipLayout (Text.lineFeed :: (k ++ u)) = k ++ u := by
  obtain ⟨b, t, rfl, hspace, hbreak⟩ := hk.exists_cons
  rw [skipLayout, List.dropWhile_cons_of_pos rfl, List.cons_append,
    List.dropWhile_cons_of_neg (by simp [hspace, hbreak])]

theorem IsKey.skipSpaces_append {k : Text} (hk : IsKey k) (u : Text) :
    skipSpaces (k ++ u) = k ++ u := by
  obtain ⟨b, t, rfl, hspace, -⟩ := hk.exists_cons
  exact skipSpaces_cons hspace (t ++ u)

theorem IsKey.dropWhile_append {k : Text} (hk : IsKey k) (u : Text) :
    (k ++ u).dropWhile isBreak = k ++ u := by
  obtain ⟨b, t, rfl, -, hbreak⟩ := hk.exists_cons
  exact List.dropWhile_cons_of_neg (by simp [hbreak])

/-- A pair that comes next is the first of the pairs. -/
theorem pairs_of_pair {t rest : Text} {es : List Entry}
    (h : Reads (pair total) (skipLayout t) es rest) :
    (pairs total t).rest = (pairs total (skipToEnd rest)).rest ∧
      (pairs total t).entries = es ++ (pairs total (skipToEnd rest)).entries := by
  obtain ⟨h, hpair⟩ := h
  rw [pairs]
  simp only [hpair]
  exact ⟨trivial, trivial⟩

theorem pairs_eq_nil {t : Text} (h : pair total (skipLayout t) = none) :
    (pairs total t).rest = t ∧ (pairs total t).entries = [] := by
  rw [pairs]
  simp only [h]
  exact ⟨trivial, trivial⟩

/-- Behind the header of a table its lines are read, up to where no line comes next. -/
theorem pairs_writtenLines (ls : List Line) {rest : Text}
    (hrest : pair total (skipLayout (Text.lineFeed :: rest)) = none) :
    (pairs total (writtenLines ls ++ Text.lineFeed :: rest)).rest = Text.lineFeed :: rest ∧
      List.Forall₂ Line.Makes ls
        (pairs total (writtenLines ls ++ Text.lineFeed :: rest)).entries := by
  induction ls with
  | nil =>
    obtain ⟨hr, he⟩ := pairs_eq_nil hrest
    rw [writtenLines_nil, List.nil_append, hr, he]
    exact ⟨rfl, .nil⟩
  | cons l ls ih =>
    obtain ⟨u, hu⟩ := exists_lineFeed ls rest
    rw [writtenLines_cons, List.cons_append, List.append_assoc]
    rw [hu] at ih ⊢
    have hpair : Reads (pair total)
      (skipLayout (Text.lineFeed :: (l.written ++ Text.lineFeed :: u)))
        [.pair (lineAt total (Text.lineFeed :: u)) l.key l.value] (Text.lineFeed :: u) := by
      have hline := reads_pair l.isKey l.begins fun depth => l.reads total depth u
      rw [Line.written, line_append, l.isKey.skipLayout_append, ← line_append]
      exact hline
    obtain ⟨hr, he⟩ := pairs_of_pair hpair
    rw [hr, he]
    exact ⟨ih.1, .cons ⟨_, rfl⟩ ih.2⟩

theorem IsKey.reads_path (total : Nat) {k : Text} (hk : IsKey k) (u : Text) :
    Reads (path total) (k ++ 93 :: u) (.ok [k]) (93 :: u) := by
  obtain ⟨h, hkey⟩ := hk.reads total (b := 93) rfl u
  refine ⟨h, ?_⟩
  rw [path]
  simp only [hkey]
  split
  · rename_i hdot
    cases hdot
  · rfl

/-- A key between brackets is the name of a table. -/
theorem IsKey.reads_bracketed (total : Nat) {k : Text} (hk : IsKey k) (u : Text) :
    Reads (bracketed total 1) (91 :: (k ++ 93 :: u)) (.ok (k, [k])) u := by
  have hopen : ((91 :: (k ++ 93 :: u)).take 1 != List.replicate 1 91) = false := rfl
  have hinner : skipSpaces ((91 :: (k ++ 93 :: u)).drop 1) = k ++ 93 :: u :=
    hk.skipSpaces_append (93 :: u)
  obtain ⟨h, hpath⟩ : Reads (path total) (skipSpaces ((91 :: (k ++ 93 :: u)).drop 1)) (.ok [k])
      (93 :: u) := by
    rw [hinner]
    exact hk.reads_path total u
  have hclose : skipSpaces (93 :: u) = 93 :: u := skipSpaces_cons rfl u
  have hbracket : (93 :: u).take 1 = List.replicate 1 93 := rfl
  have hwritten : (k ++ 93 :: u).take ((k ++ 93 :: u).length - (93 :: u).length) = k := by simp
  have hlength : (91 :: (k ++ 93 :: u)).length - ((93 :: u).length - 1) =
      (91 :: (k ++ [93])).length := by
    simp
    omega
  have happend : 91 :: (k ++ 93 :: u) = 91 :: (k ++ [93]) ++ u := by simp
  obtain ⟨h', htake⟩ :
    ∃ h, Parsed.take? (91 :: (k ++ [93])).length (.ok (k, [k]) : Readable (Text × List Text))
      (91 :: (k ++ 93 :: u)) = some ⟨.ok (k, [k]), u, h⟩ := by
    rw [happend]
    exact reads_take (List.cons_ne_nil _ _) _ u
  refine ⟨h', ?_⟩
  simp only [bracketed, hopen, hpath, hclose, hinner, hwritten, hlength]
  rw [if_neg (by decide), if_pos hbracket]
  exact htake

/-- A key between brackets is the header of a table. -/
theorem IsKey.reads_header (total : Nat) {k : Text} (hk : IsKey k) (u : Text) :
    Reads (header total) (91 :: (k ++ 93 :: u)) (.table (lineAt total u) k [k]) u := by
  obtain ⟨h, hbracketed⟩ := hk.reads_bracketed total u
  refine ⟨h, ?_⟩
  rw [header, hbracketed]
  rfl

/-- A header that comes next is read with the pairs behind it. -/
theorem expression_of_header {t rest : Text} {e : Entry}
    (h : Reads (header total) (skipSpaces t) e rest) :
    (expression total t).rest = (pairs total (skipToEnd rest)).rest ∧
      (expression total t).entries = e :: (pairs total (skipToEnd rest)).entries := by
  obtain ⟨h, hheader⟩ := h
  simp only [expression, hheader]
  exact ⟨trivial, trivial⟩

theorem expressions_of_rest {t rest : Text} {b : UInt8}
    (h : (expression total t).rest = b :: rest) : expressions total t =
      if isBreak b then (expressions total (rest.dropWhile isBreak)).map
        ((expression total t).entries ++ ·)
      else none := by
  rw [expressions]
  generalize expression total t = e at h
  obtain ⟨es, r, le⟩ := e
  subst h
  rfl

/-- A table, as it is written. -/
structure Table where
  /-- The name. -/
  name : Text
  /-- The fields. -/
  lines : List Line
  isKey : IsKey name

namespace Table

/-- The header of the table and the lines of its fields. -/
def written (t : Table) : Text := 91 :: (t.name ++ 93 :: writtenLines t.lines)

/-- The entries are the table with its fields, on some lines. -/
def Makes (t : Table) (es : List Entry) : Prop :=
  ∃ n fields, es = .table n t.name [t.name] :: fields ∧ List.Forall₂ Line.Makes t.lines fields

theorem expression_written (t : Table) {rest : Text}
    (hrest : pair total (skipLayout (Text.lineFeed :: rest)) = none) :
    (expression total (t.written ++ Text.lineFeed :: rest)).rest = Text.lineFeed :: rest ∧
      t.Makes (expression total (t.written ++ Text.lineFeed :: rest)).entries := by
  have hwritten : t.written ++ Text.lineFeed :: rest =
      91 :: (t.name ++ 93 :: (writtenLines t.lines ++ Text.lineFeed :: rest)) := by simp [written]
  have hheader : Reads (header total) (skipSpaces (t.written ++ Text.lineFeed :: rest))
      (.table (lineAt total (writtenLines t.lines ++ Text.lineFeed :: rest)) t.name [t.name])
      (writtenLines t.lines ++ Text.lineFeed :: rest) := by
    rw [hwritten]
    exact t.isKey.reads_header total _
  obtain ⟨hr, he⟩ := expression_of_header hheader
  obtain ⟨u, hu⟩ := exists_lineFeed t.lines rest
  have hend : skipToEnd (writtenLines t.lines ++ Text.lineFeed :: rest) =
      writtenLines t.lines ++ Text.lineFeed :: rest := by
    rw [hu]
    rfl
  obtain ⟨hpairs, hfields⟩ := pairs_writtenLines t.lines hrest
  rw [hr, he, hend, hpairs]
  exact ⟨rfl, _, _, rfl, hfields⟩

/-- **A written table is read as its header with its fields**, if no line comes next. -/
theorem expressions_written (t : Table) (total : Nat) (rest : Text)
    (hrest : pair total (skipLayout (Text.lineFeed :: rest)) = none) :
    ∃ es, t.Makes es ∧ expressions total (t.written ++ Text.lineFeed :: rest) =
      (expressions total (rest.dropWhile isBreak)).map (es ++ ·) := by
  obtain ⟨hr, hmakes⟩ := t.expression_written hrest
  exact ⟨_, hmakes, expressions_of_rest hr⟩

end Table

theorem pair_bracket (t : Text) : pair total (91 :: t) = none := rfl

theorem pair_nil : pair total [] = none := rfl

/-- Tables with an empty line between neighbours. -/
def document : List Table → Text
  | [] => []
  | [t] => t.written ++ [Text.lineFeed]
  | t :: t' :: ts => t.written ++ Text.lineFeed :: Text.lineFeed :: document (t' :: ts)

/-- A document begins with a bracket, if it has a table. -/
theorem exists_document (t : Table) (ts : List Table) : ∃ u, document (t :: ts) = 91 :: u := by
  cases ts with
  | nil => exact ⟨_, rfl⟩
  | cons => exact ⟨_, rfl⟩

/-- In front of an empty line and a bracket, a table is read by itself. -/
theorem Table.expressions_bracket (t : Table) (total : Nat) (u : Text) :
    ∃ es, t.Makes es ∧ expressions total (t.written ++ Text.lineFeed :: Text.lineFeed :: 91 :: u) =
      (expressions total (91 :: u)).map (es ++ ·) :=
  t.expressions_written total (Text.lineFeed :: 91 :: u) (pair_bracket u)

/-- **A document is read as its tables**, one after the other. -/
theorem expressions_document (total : Nat) (ts : List Table) :
    ∃ ess, List.Forall₂ Table.Makes ts ess ∧ expressions total (document ts) =
      some ess.flatten := by
  induction ts with
  | nil => exact ⟨[], .nil, by rw [document, expressions]; rfl⟩
  | cons t ts ih =>
    cases ts with
    | nil =>
      obtain ⟨es, hes, he⟩ := t.expressions_written total [] pair_nil
      refine ⟨[es], .cons hes .nil, he.trans ?_⟩
      rw [List.dropWhile_nil, expressions]
      rfl
    | cons t' ts =>
      obtain ⟨ess, hess, hmore⟩ := ih
      obtain ⟨u, hu⟩ := exists_document t' ts
      obtain ⟨es, hes, he⟩ := t.expressions_bracket total u
      refine ⟨es :: ess, .cons hes hess, ?_⟩
      rw [hu] at hmore
      rw [document, hu, he, hmore]
      rfl

theorem header_eq_none {b : UInt8} (hb : b ≠ 91) (t : Text) : header total (b :: t) = none := by
  simp [header, bracketed, hb]

/-- A line that is no pair is no expression, and what begins with it is no TOML. -/
theorem expressions_of_line {k w u : Text} (hk : IsKey k) (h : pair total (line k w ++ u) = none) :
    expressions total (line k w ++ u) = none := by
  rw [line_append] at h ⊢
  obtain ⟨b, t, rfl⟩ := List.exists_cons_of_ne_nil hk.1
  have hb := isKeyByte_toNat (hk.2 b List.mem_cons_self)
  have hne {c : UInt8} (hc : c.toNat < 45 ∨ c.toNat = 91) : b ≠ c := by
    rintro rfl
    omega
  have hspaces := hk.skipSpaces_append (32 :: (61 :: 32 :: (w ++ u)))
  have hrest : (expression total (b :: t ++ 32 :: (61 :: 32 :: (w ++ u)))).rest =
      b :: (t ++ 32 :: (61 :: 32 :: (w ++ u))) := by
    rw [← hspaces] at h
    have hheader : header total (skipSpaces (b :: t ++ 32 :: (61 :: 32 :: (w ++ u)))) = none := by
      rw [hspaces]
      exact header_eq_none (hne (.inr rfl)) _
    simp only [expression, hheader, h, hspaces]
    rw [List.cons_append, skipComment]
    exact fun _ e => absurd (List.cons.inj e).1 (hne (.inl (by decide)))
  rw [expressions_of_rest hrest, if_neg]
  simp [isBreak, hne (c := 10) (by decide), hne (c := 13) (by decide)]

/-- A table with such a line after it is no TOML. -/
theorem Table.expressions_eq_none (t : Table) {k w u : Text} (hk : IsKey k)
    (h : pair total (line k w ++ u) = none) :
    expressions total (t.written ++ Text.lineFeed :: (line k w ++ u)) = none := by
  have hrest : pair total (skipLayout (Text.lineFeed :: (line k w ++ u))) = none := by
    rwa [line_append, hk.skipLayout_append, ← line_append]
  obtain ⟨es, -, he⟩ := t.expressions_written total (line k w ++ u) hrest
  rw [he, line_append, hk.dropWhile_append, ← line_append, expressions_of_line hk h]
  rfl

/-- What is no TOML stays so behind another table. -/
theorem Table.expressions_table_eq_none (t t' : Table) {u : Text}
    (h : expressions total (t'.written ++ u) = none) :
    expressions total (t.written ++ Text.lineFeed :: Text.lineFeed :: (t'.written ++ u)) =
      none := by
  obtain ⟨v, hv⟩ : ∃ v, t'.written ++ u = 91 :: v := ⟨_, rfl⟩
  obtain ⟨es, -, he⟩ := t.expressions_bracket total v
  rw [hv] at h ⊢
  rw [he, h]
  rfl

/-! ### Fields -/

namespace Fields

variable {fs : Fields} {k : Text}

theorem get?_eq_none (h : k ∉ fs.map Prod.fst) : fs.get? k = none := by
  rw [get?, List.lookup_eq_none_iff]
  intro f hf
  rw [bne_iff_ne]
  rintro rfl
  exact h (List.mem_map_of_mem hf)

theorem get?_last (h : k ∉ fs.map Prod.fst) (i : Item) : get? (fs ++ [(k, i)]) k = some i := by
  have hnone := get?_eq_none h
  rw [get?] at hnone ⊢
  rw [List.lookup_append, hnone, List.lookup_cons_self]
  rfl

theorem put_new (h : k ∉ fs.map Prod.fst) (i : Item) : put k i fs = fs ++ [(k, i)] := by
  induction fs with
  | nil => rfl
  | cons f fs ih =>
    obtain ⟨hne, hfs⟩ := not_or.1 (mt List.mem_cons.2 h)
    rw [put, if_neg (Ne.symm hne), ih hfs]
    rfl

theorem put_last (h : k ∉ fs.map Prod.fst) (i j : Item) :
    put k i (fs ++ [(k, j)]) = fs ++ [(k, i)] := by
  induction fs with
  | nil => exact if_pos rfl
  | cons f fs ih =>
    obtain ⟨hne, hfs⟩ := not_or.1 (mt List.mem_cons.2 h)
    rw [List.cons_append, put, if_neg (Ne.symm hne), ih hfs]
    rfl

end Fields

/-- The field is that of the line. -/
def Line.IsField (l : Line) (f : Text × Item) : Prop := ∃ n, f = (l.key, .value n l.value)

/-- The field is the table. -/
def Table.IsField (t : Table) (f : Text × Item) : Prop :=
  ∃ n fields, f = (t.name, .table n true fields) ∧ List.Forall₂ Line.IsField t.lines fields

/-- A pair is added to the table that was named last. -/
theorem add_pair {fs inner : Fields} {name k : Text} (hname : name ∉ fs.map Prod.fst)
    (hk : k ∉ inner.map Prod.fst) (n line : Nat) (v : Value) :
    Document.add ⟨fs ++ [(name, .table n true inner)], [name]⟩ (.pair line k v) =
      .ok ⟨fs ++ [(name, .table n true (inner ++ [(k, .value line v)]))], [name]⟩ := by
  simp only [Document.add, Fields.modify, Fields.get?_last hname, Fields.addPair,
    Fields.get?_eq_none hk, Fields.put_new hk, Fields.put_last hname]
  rfl

theorem add_table {fs : Fields} {name : Text} (hname : name ∉ fs.map Prod.fst) (current : List Text)
    (n : Nat) :
    Document.add ⟨fs, current⟩ (.table n name [name]) =
      .ok ⟨fs ++ [(name, .table n true [])], [name]⟩ := by
  simp only [Document.add, Fields.modify, List.dropLast_singleton, List.getLastD_cons,
    List.getLastD_nil, Fields.addTable, Fields.get?_eq_none hname, Fields.put_new hname]
  rfl

/-- The pairs of a table are added to it. -/
theorem foldlM_pairs {fs inner : Fields} {name : Text} {ls : List Line} {es : List Entry}
    (hname : name ∉ fs.map Prod.fst) (hkeys : (inner.map Prod.fst ++ ls.map Line.key).Nodup)
    (h : List.Forall₂ Line.Makes ls es) (n : Nat) :
    ∃ fields, List.Forall₂ Line.IsField ls fields ∧
      es.foldlM Document.add ⟨fs ++ [(name, .table n true inner)], [name]⟩ =
        .ok ⟨fs ++ [(name, .table n true (inner ++ fields))], [name]⟩ := by
  induction h generalizing inner with
  | nil => exact ⟨[], .nil, by rw [List.append_nil]; rfl⟩
  | @cons l e ls es he hes ih =>
    obtain ⟨line, rfl⟩ := he
    have hkey : l.key ∉ inner.map Prod.fst := by
      intro hmem
      exact (List.nodup_append.1 hkeys).2.2 _ hmem _ List.mem_cons_self rfl
    have hmore : ((inner ++ [(l.key, Item.value line l.value)]).map Prod.fst ++
        ls.map Line.key).Nodup := by
      simpa using hkeys
    obtain ⟨fields, hfields, hfold⟩ := ih hmore
    refine ⟨(l.key, .value line l.value) :: fields, .cons ⟨line, rfl⟩ hfields, ?_⟩
    rw [List.append_assoc] at hfold
    rw [List.foldlM_cons, add_pair hname hkey]
    exact hfold

/-- Tables with different names are added to a document. -/
theorem foldlM_tables {fs : Fields} {ts : List Table} {ess : List (List Entry)}
    (hnames : (fs.map Prod.fst ++ ts.map Table.name).Nodup)
    (hkeys : ∀ t ∈ ts, (t.lines.map Line.key).Nodup) (h : List.Forall₂ Table.Makes ts ess)
    (current : List Text) :
    ∃ fields current', List.Forall₂ Table.IsField ts fields ∧
      ess.flatten.foldlM Document.add ⟨fs, current⟩ = .ok ⟨fs ++ fields, current'⟩ := by
  induction h generalizing fs current with
  | nil => exact ⟨[], current, .nil, by rw [List.append_nil]; rfl⟩
  | @cons t es ts ess he hess ih =>
    obtain ⟨n, pairs, rfl, hpairs⟩ := he
    obtain ⟨hkeys, hmore⟩ := List.forall_mem_cons.1 hkeys
    have hname : t.name ∉ fs.map Prod.fst := by
      intro hmem
      exact (List.nodup_append.1 hnames).2.2 _ hmem _ List.mem_cons_self rfl
    have hinner : (([] : Fields).map Prod.fst ++ t.lines.map Line.key).Nodup := hkeys
    obtain ⟨inner, hfields, hfold⟩ := foldlM_pairs hname hinner hpairs n
    have hrest : ((fs ++ [(t.name, Item.table n true inner)]).map Prod.fst ++
        ts.map Table.name).Nodup := by
      simpa using hnames
    obtain ⟨fields, current', hmore, hfold'⟩ := ih hrest hmore [t.name]
    refine ⟨(t.name, .table n true inner) :: fields, current',
      .cons ⟨n, inner, rfl, hfields⟩ hmore, ?_⟩
    rw [List.append_assoc] at hfold'
    rw [List.flatten_cons, List.cons_append, List.foldlM_cons, add_table hname]
    show (pairs ++ ess.flatten).foldlM Document.add _ = _
    rw [List.foldlM_append, hfold]
    exact hfold'

/-- **The entries of tables with different names make these tables**, if each table has different
keys. -/
theorem ofEntries_flatten {ts : List Table} {ess : List (List Entry)}
    (hnames : (ts.map Table.name).Nodup) (hkeys : ∀ t ∈ ts, (t.lines.map Line.key).Nodup)
    (h : List.Forall₂ Table.Makes ts ess) :
    ∃ fields, List.Forall₂ Table.IsField ts fields ∧ Fields.ofEntries ess.flatten = .ok fields := by
  have hnames : (([] : Fields).map Prod.fst ++ ts.map Table.name).Nodup := hnames
  obtain ⟨fields, current, hfields, hfold⟩ := foldlM_tables hnames hkeys h []
  refine ⟨fields, hfields, ?_⟩
  rw [Fields.ofEntries, hfold]
  rfl

end Scriptlet.Toml
