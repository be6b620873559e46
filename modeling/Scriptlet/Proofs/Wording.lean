import Mathlib.Data.Nat.Digits.Defs
import Mathlib.Data.List.Forall2
import Scriptlet.Proofs.Rune
import Scriptlet.Proofs.Tables

/-!
# The words of a settings file

Blanks, comments, strings in their four forms, integers and keys, each as a relation between a text
that begins with such a word, what the word stands for, and what is left of the text. No reader
takes part in these relations; what the readers find at the front of a text is such a word
(`trails_skipToEnd`, `stringAt_of_string`, `integerAt_of_number`, `keyAt_of_key`).

Where a shorter word would leave something that can be read too, it is part of the relation that the
word is the longest one.
-/

namespace Scriptlet

theorem Parsed.take?_eq_some {α β : Type} {n : Nat} {a : α} {l : List β} {p : Parsed α l}
    (h : Parsed.take? n a l = some p) : p.value = a ∧ p.rest = l.drop n ∧ 0 < n ∧ n ≤ l.length := by
  rw [take?] at h
  split_ifs at h with hn
  obtain rfl := Option.some.inj h
  exact ⟨rfl, rfl, hn⟩

namespace Toml

/-! ### Blanks and comments -/

/-- Spaces and tabs. -/
def IsBlank (w : Text) : Prop := ∀ b ∈ w, b = 32 ∨ b = 9

/-- Line ends. -/
def IsLineEnds (w : Text) : Prop := ∀ b ∈ w, b = 10 ∨ b = 13

/-- Spaces, tabs and line ends. -/
def IsLayout (w : Text) : Prop := ∀ b ∈ w, b = 32 ∨ b = 9 ∨ b = 10 ∨ b = 13

/-- Behind the last word of a line stand blanks, and maybe a comment, which goes on up to a
control. -/
inductive Trails : (t rest : Text) → Prop where
  | blank {w rest : Text} : IsBlank w → Trails (w ++ rest) rest
  | comment {w c rest : Text} :
      IsBlank w → (∀ b ∈ c, b = 9 ∨ 32 ≤ b) → (∀ b ∈ rest.head?, b ≠ 9 ∧ b < 32) →
      Trails (w ++ 35 :: (c ++ rest)) rest

/-- What is dropped from the front of a list, and what it ends at. -/
theorem exists_dropWhile {α : Type} (p : α → Bool) (l : List α) :
    ∃ w, (∀ b ∈ w, p b = true) ∧ l = w ++ l.dropWhile p ∧
      ∀ b ∈ (l.dropWhile p).head?, p b = false := by
  refine ⟨l.takeWhile p, fun b hb => List.mem_takeWhile_imp hb,
    List.takeWhile_append_dropWhile.symm, ?_⟩
  intro b hb
  have hnot := List.head?_dropWhile_not p l
  rw [Option.mem_def.1 hb] at hnot
  simpa using hnot

theorem drop_length_takeWhile {α : Type} (p : α → Bool) (l : List α) :
    l.drop (l.takeWhile p).length = l.dropWhile p := by
  induction l with
  | nil => rfl
  | cons a l ih =>
    rw [List.takeWhile_cons, List.dropWhile_cons]
    split
    · exact ih
    · rfl

theorem isSpace_iff {b : UInt8} : isSpace b = true ↔ b = 32 ∨ b = 9 := by simp [isSpace]

theorem isBreak_iff {b : UInt8} : isBreak b = true ↔ b = 10 ∨ b = 13 := by simp [isBreak]

theorem isPlain_iff {b : UInt8} : isPlain b = true ↔ b = 9 ∨ 32 ≤ b := by simp [isPlain, or_comm]

theorem exists_skipSpaces (t : Text) : ∃ w, IsBlank w ∧ t = w ++ skipSpaces t := by
  obtain ⟨w, hw, ht, -⟩ := exists_dropWhile isSpace t
  exact ⟨w, fun b hb => isSpace_iff.1 (hw b hb), ht⟩

theorem exists_skipLayout (t : Text) :
    ∃ w, IsLayout w ∧ t = w ++ skipLayout t ∧ ∀ c ∈ (skipLayout t).head?, ¬ IsLayout [c] := by
  have hiff {b : UInt8} : (isSpace b || isBreak b) = true ↔ b = 32 ∨ b = 9 ∨ b = 10 ∨ b = 13 := by
    rw [Bool.or_eq_true, isSpace_iff, isBreak_iff, or_assoc]
  obtain ⟨w, hw, ht, hend⟩ := exists_dropWhile (fun b => isSpace b || isBreak b) t
  refine ⟨w, fun b hb => hiff.1 (hw b hb), ht, fun c hc hlayout => ?_⟩
  exact Bool.false_ne_true ((hend c hc).symm.trans (hiff.2 (hlayout c List.mem_cons_self)))

/-- What is skipped up to the end of a line is blanks and a comment. -/
theorem trails_skipToEnd (t : Text) : Trails t (skipToEnd t) := by
  obtain ⟨w, hw, ht⟩ := exists_skipSpaces t
  rw [skipToEnd]
  generalize skipSpaces t = u at ht
  subst ht
  unfold skipComment
  split
  · rename_i u
    obtain ⟨c, hc, hu, hend⟩ := exists_dropWhile isPlain u
    nth_rewrite 1 [hu]
    refine .comment hw (fun b hb => isPlain_iff.1 (hc b hb)) fun b hb => ?_
    have hcontrol : ¬ (b = 9 ∨ 32 ≤ b) := by
      rw [← isPlain_iff, hend b hb]
      exact Bool.false_ne_true
    exact ⟨fun h => hcontrol (.inl h), UInt8.not_le.1 fun h => hcontrol (.inr h)⟩
  · exact .blank hw

/-! ### Strings with escapes -/

/-- Hexadecimal digits and their number. -/
def IsHex (w : Text) (n : Nat) : Prop :=
  ∃ ds, List.Forall₂ (fun b d => hexDigit? b = some d) w ds ∧ n = Nat.ofDigits 16 ds.reverse

/-- An escape behind its backslash, and the bytes of the character that it stands for. -/
inductive Escapes : (w s : Text) → Prop where
  | short {b c : UInt8} :
      (b, c) ∈ [(98, 8), (116, 9), (110, 10), (102, 12), (114, 13), (34, 34), (92, 92)] →
      Escapes [b] [c]
  | code {b : UInt8} {w : Text} {n : Nat} : (b, w.length) ∈ [(117, 4), (85, 8)] → IsHex w n →
      Rune.IsScalar n → Escapes (b :: w) (Rune.encode n)

/-- What stands between the quotes of a string with escapes, and what it stands for. In a long
string there may be line ends, and a backslash at the end of a line joins it to the next word. -/
inductive Stands (long : Bool) : (w s : Text) → Prop where
  | nil : Stands long [] []
  | plain {b : UInt8} {w s : Text} :
      32 ≤ b → b ≠ 34 → b ≠ 92 → Stands long w s → Stands long (b :: w) (b :: s)
  | lineEnd {b : UInt8} {w s : Text} : long = true → b = 10 ∨ b = 13 → Stands long w s →
      Stands long (b :: w) (b :: s)
  | escape {e c w s : Text} : Escapes e c → Stands long w s → Stands long (92 :: (e ++ w)) (c ++ s)
  | join {b : UInt8} {v w s : Text} : long = true → b = 10 ∨ b = 13 → IsLayout v →
      (∀ c ∈ w.head?, ¬ IsLayout [c]) → Stands long w s → Stands long (92 :: b :: (v ++ w)) s

theorem isHex_of_hexNumber? {n m : Nat} {t : Text} (h : hexNumber? n t = some m) :
    (t.take n).length = n ∧ IsHex (t.take n) m := by
  induction n generalizing t m with
  | zero =>
    obtain rfl := Option.some.inj h
    exact ⟨rfl, [], .nil, rfl⟩
  | succ n ih =>
    cases t with
    | nil => cases h
    | cons b t =>
      rw [hexNumber?] at h
      simp only [Option.bind_eq_bind, Option.bind_eq_some_iff, Option.pure_def,
        Option.some.injEq] at h
      obtain ⟨d, hd, r, hr, rfl⟩ := h
      obtain ⟨hlength, ds, hds, rfl⟩ := ih hr
      rw [List.take_succ_cons, List.length_cons, hlength]
      refine ⟨rfl, d :: ds, .cons hd hds, ?_⟩
      rw [List.reverse_cons, Nat.ofDigits_append, List.length_reverse, ← hds.length_eq, hlength,
        Nat.ofDigits_singleton, Nat.mul_comm, Nat.add_comm]
      rfl

theorem isScalar_of_character? {n : Nat} {s : Text} (h : character? n = some s) :
    Rune.IsScalar n ∧ s = Rune.encode n := by
  rw [character?] at h
  split_ifs at h with hn
  simp only [Bool.or_eq_true, Bool.and_eq_true, decide_eq_true_eq, not_or] at hn
  refine ⟨?_, (Option.some.inj h).symm⟩
  rw [Rune.IsScalar]
  omega

/-- An escape that is read is one, and it is taken whole. -/
theorem escapes_of_escape? {t s : Text} {n : Nat} (h : escape? t = some (some s, n)) :
    ∃ w, Escapes w s ∧ t = w ++ t.drop n := by
  have hcode {b : UInt8} {k : Nat} {u : Text} (hb : (b, k) ∈ [((117 : UInt8), 4), (85, 8)])
      (h : ((hexNumber? k u).map fun m => (character? m, k + 1)) = some (some s, n)) :
      ∃ w, Escapes w s ∧ b :: u = w ++ (b :: u).drop n := by
    obtain ⟨m, hm, heq⟩ := Option.map_eq_some_iff.1 h
    obtain ⟨hs, rfl⟩ := Prod.mk.inj heq
    obtain ⟨hscalar, rfl⟩ := isScalar_of_character? hs
    obtain ⟨hlength, hhex⟩ := isHex_of_hexNumber? hm
    refine ⟨b :: u.take k, .code (by rwa [hlength]) hhex hscalar, ?_⟩
    rw [List.drop_succ_cons, List.cons_append, List.take_append_drop]
  have hshort {b c : UInt8} {u : Text}
      (hb : (b, c) ∈ [((98 : UInt8), (8 : UInt8)), (116, 9), (110, 10), (102, 12), (114, 13),
        (34, 34), (92, 92)])
      (h : (some (some [c], 1) : Option (Option Text × Nat)) = some (some s, n)) :
      ∃ w, Escapes w s ∧ b :: u = w ++ (b :: u).drop n := by
    obtain ⟨hs, rfl⟩ := Prod.mk.inj (Option.some.inj h)
    obtain rfl := Option.some.inj hs
    exact ⟨[b], .short hb, rfl⟩
  unfold escape? at h
  split at h
  case h_8 => cases h
  case h_9 => exact hcode (by decide) h
  case h_10 => exact hcode (by decide) h
  case h_11 => cases h
  all_goals exact hshort (by decide) h

/-- A line end, and the layout behind it up to the next word. -/
theorem exists_join {t : Text} (h : t.head?.any isBreak = true) :
    ∃ b v, (b = 10 ∨ b = 13) ∧ IsLayout v ∧ t = b :: (v ++ skipLayout t) ∧
      ∀ c ∈ (skipLayout t).head?, ¬ IsLayout [c] := by
  obtain ⟨w, hw, ht, hend⟩ := exists_skipLayout t
  obtain ⟨b, hb, hbreak⟩ := (Option.any_eq_true _ _).1 h
  rw [isBreak_iff] at hbreak
  have hlayout : IsLayout [b] := List.forall_mem_singleton.2 (.inr (.inr hbreak))
  cases w with
  | nil =>
    -- the text does begin with layout
    rw [ht, List.nil_append] at hb
    exact absurd hlayout (hend b hb)
  | cons c v =>
    obtain rfl : c = b := by
      rw [ht] at hb
      exact Option.some.inj hb
    exact ⟨c, v, hbreak, fun b hb => hw b (List.mem_cons_of_mem _ hb), ht, hend⟩

/-- The quotes at the end of a string with escapes. -/
def endQuotes (long : Bool) : Text := if long then [34, 34, 34] else [34]

theorem appendPieces_eq_some {a b : Option Text} {s : Text} (h : appendPieces a b = some s) :
    ∃ c d, a = some c ∧ b = some d ∧ s = c ++ d := by
  rw [appendPieces] at h
  simp only [Option.bind_eq_bind, Option.bind_eq_some_iff, Option.pure_def, Option.some.injEq] at h
  obtain ⟨c, hc, d, hd, rfl⟩ := h
  exact ⟨c, d, hc, hd, rfl⟩

/-- **The rest of a string that is read stands for what is read**, and the quotes at its end
follow. -/
theorem stands_of_stringBody? {long : Bool} {t s : Text} {n : Nat}
    (h : stringBody? long t = some (some s, n)) :
    ∃ w, Stands long w s ∧ t = w ++ (endQuotes long ++ t.drop n) := by
  fun_induction stringBody? long t generalizing s n with
  | case1 | case3 | case6 | case8 => cases h
  | case2 rest hlong hquotes =>
    obtain ⟨hs, rfl⟩ := Prod.mk.inj (Option.some.inj h)
    obtain rfl := Option.some.inj hs
    obtain ⟨u, rfl⟩ := List.isPrefixOf_iff_prefix.1 hquotes
    exact ⟨[], .nil, by rw [endQuotes, if_pos hlong]; rfl⟩
  | case4 rest hlong =>
    obtain ⟨hs, rfl⟩ := Prod.mk.inj (Option.some.inj h)
    obtain rfl := Option.some.inj hs
    exact ⟨[], .nil, by rw [endQuotes, if_neg hlong]; rfl⟩
  | case5 rest hjoin =>
    rename_i ih
    rw [Bool.and_eq_true] at hjoin
    obtain ⟨b, v, hb, hv, hrest, hend⟩ := exists_join hjoin.2
    obtain ⟨body, hbody, heq⟩ := Option.map_eq_some_iff.1 h
    obtain ⟨hs, rfl⟩ := Prod.mk.inj heq
    obtain ⟨w, hw, hdrop⟩ := ih (n := body.2) (by rw [hbody, ← hs])
    have hskip : rest.drop _ = skipLayout rest := drop_length_takeWhile _ rest
    rw [hskip] at hdrop
    refine ⟨92 :: b :: (v ++ w), .join hjoin.1 hb hv (fun c hc => hend c ?_) hw, ?_⟩
    · rw [hdrop]
      exact List.mem_head?_append_of_mem_head? hc
    · rw [List.drop_succ_cons, ← List.drop_drop, hskip]
      nth_rewrite 1 [hrest]
      rw [List.cons_append, List.cons_append, List.append_assoc, ← hdrop]
  | case7 rest _ piece m hescape _ ih =>
    obtain ⟨body, hbody, heq⟩ := Option.map_eq_some_iff.1 h
    obtain ⟨hs, rfl⟩ := Prod.mk.inj heq
    obtain ⟨c, d, rfl, hd, rfl⟩ := appendPieces_eq_some hs
    obtain ⟨e, he, hrest⟩ := escapes_of_escape? hescape
    obtain ⟨w, hw, hdrop⟩ := ih (n := body.2) (by rw [hbody, ← hd])
    refine ⟨92 :: (e ++ w), .escape he hw, ?_⟩
    rw [List.drop_succ_cons, ← List.drop_drop, List.cons_append, List.append_assoc, ← hdrop,
      ← hrest]
  | case9 b rest hquote hbackslash hcontrol ih =>
    obtain ⟨body, hbody, heq⟩ := Option.map_eq_some_iff.1 h
    obtain ⟨hs, rfl⟩ := Prod.mk.inj heq
    obtain ⟨c, d, hc, hd, rfl⟩ := appendPieces_eq_some hs
    obtain rfl := Option.some.inj hc
    obtain ⟨w, hw, hrest⟩ := ih (n := body.2) (by rw [hbody, ← hd])
    refine ⟨b :: w, ?_, by rw [List.drop_succ_cons, List.cons_append, ← hrest]⟩
    by_cases hb : 32 ≤ b
    · exact .plain hb hquote hbackslash hw
    · simp only [UInt8.not_le.1 hb, decide_true, Bool.true_and, Bool.not_eq_true',
        Bool.not_eq_false, Bool.and_eq_true, isBreak_iff] at hcontrol
      exact .lineEnd hcontrol.1 hcontrol.2 hw

/-- A basic string is read up to its closing quote. -/
theorem stands_of_basicString? {t s : Text} {n : Nat} (h : basicString? t = some (some s, n)) :
    ∃ w, Stands false w s ∧ t = 34 :: (w ++ 34 :: t.drop n) := by
  unfold basicString? at h
  split at h
  · rename_i u
    obtain ⟨body, hbody, heq⟩ := Option.map_eq_some_iff.1 h
    obtain ⟨hs, rfl⟩ := Prod.mk.inj heq
    obtain ⟨w, hw, hu⟩ := stands_of_stringBody? (n := body.2) (by rw [hbody, ← hs])
    exact ⟨w, hw, congrArg (34 :: ·) hu⟩
  · cases h

/-! ### Strings of any form -/

/-- A string, and what it stands for: with escapes or without, on one line or on many. -/
inductive StringAt : (s t rest : Text) → Prop where
  | basic {w s rest : Text} : Stands false w s → StringAt s (34 :: (w ++ 34 :: rest)) rest
  | long {e w s rest : Text} : IsLineEnds e → (∀ b ∈ w.head?, ¬ IsLineEnds [b]) → Stands true w s →
      StringAt s (34 :: 34 :: 34 :: (e ++ (w ++ 34 :: 34 :: 34 :: rest))) rest
  | literal {s rest : Text} :
      (∀ b ∈ s, (b = 9 ∨ 32 ≤ b) ∧ b ≠ 39) → StringAt s (39 :: (s ++ 39 :: rest)) rest
  | longLiteral {e s rest : Text} : IsLineEnds e → (∀ b ∈ s.head?, ¬ IsLineEnds [b]) →
      (∀ b ∈ s, b = 9 ∨ 32 ≤ b ∨ b = 10 ∨ b = 13) →
      (∀ u v, s = u ++ v → v ≠ [] → ¬ [39, 39, 39] <+: v ++ 39 :: 39 :: 39 :: rest) →
      StringAt s (39 :: 39 :: 39 :: (e ++ (s ++ 39 :: 39 :: 39 :: rest))) rest

/-- The line ends at the front of a long string do not count. -/
theorem exists_lineEnds (t : Text) :
    ∃ e, IsLineEnds e ∧ t = e ++ t.dropWhile isBreak ∧
      ∀ b ∈ (t.dropWhile isBreak).head?, ¬ IsLineEnds [b] := by
  obtain ⟨e, he, ht, hend⟩ := exists_dropWhile isBreak t
  refine ⟨e, fun b hb => isBreak_iff.1 (he b hb), ht, fun b hb hline => ?_⟩
  exact Bool.false_ne_true ((hend b hb).symm.trans (isBreak_iff.2 (hline b List.mem_cons_self)))

theorem stringAt_of_longString? {t s : Text} {n : Nat} (h : longString? t = some (some s, n)) :
    StringAt s t (t.drop n) := by
  unfold longString? at h
  split at h
  · rename_i u
    simp only [drop_length_takeWhile] at h
    obtain ⟨body, hbody, heq⟩ := Option.map_eq_some_iff.1 h
    obtain ⟨hs, rfl⟩ := Prod.mk.inj heq
    obtain ⟨e, he, hu, hend⟩ := exists_lineEnds u
    obtain ⟨w, hw, hrest⟩ := stands_of_stringBody? (n := body.2) (by rw [hbody, ← hs])
    have hdrop : (34 :: 34 :: 34 :: u).drop (body.2 + (u.takeWhile isBreak).length + 3) =
        (u.dropWhile isBreak).drop body.2 := by
      rw [← drop_length_takeWhile isBreak u, List.drop_drop,
        Nat.add_comm (u.takeWhile isBreak).length]
      rfl
    rw [hdrop]
    nth_rewrite 1 [hu]
    nth_rewrite 1 [hrest]
    refine .long he (fun b hb => hend b ?_) hw
    rw [hrest]
    exact List.mem_head?_append_of_mem_head? hb
  · cases h

theorem stringAt_of_literalString? {t s : Text} {n : Nat} (h : literalString? t = some (s, n)) :
    StringAt s t (t.drop n) := by
  unfold literalString? at h
  split at h
  · rename_i u
    dsimp only at h
    split_ifs at h with hquote
    obtain ⟨rfl, rfl⟩ := Prod.mk.inj (Option.some.inj h)
    generalize hs : (u.takeWhile fun b => isPlain b && b != 39) = s at hquote
    obtain ⟨hlt, hget⟩ := List.getElem?_eq_some_iff.1 hquote
    have hu : u = s ++ 39 :: u.drop (s.length + 1) := by
      rw [← hget, ← List.drop_eq_getElem_cons hlt, ← hs, drop_length_takeWhile,
        List.takeWhile_append_dropWhile]
    rw [show (39 :: u).drop (s.length + 2) = u.drop (s.length + 1) from rfl]
    nth_rewrite 1 [hu]
    refine .literal fun b hb => ?_
    rw [← hs] at hb
    have hplain := List.mem_takeWhile_imp hb
    rw [Bool.and_eq_true, isPlain_iff, bne_iff_ne] at hplain
    exact hplain
  · cases h

/-- The body of a long literal string ends at the first three quotes. -/
theorem longLiteralBody?_eq_some {t s : Text} (h : longLiteralBody? t = some s) :
    t = s ++ 39 :: 39 :: 39 :: t.drop (s.length + 3) ∧ (∀ b ∈ s, b = 9 ∨ 32 ≤ b ∨ b = 10 ∨ b = 13) ∧
      ∀ u v, s = u ++ v → v ≠ [] →
        ¬ [39, 39, 39] <+: v ++ 39 :: 39 :: 39 :: t.drop (s.length + 3) := by
  fun_induction longLiteralBody? t generalizing s with
  | case1 t hquotes =>
    obtain rfl := Option.some.inj h
    obtain ⟨u, rfl⟩ := List.isPrefixOf_iff_prefix.1 hquotes
    refine ⟨rfl, List.forall_mem_nil _, fun u v huv hv => ?_⟩
    exact absurd (List.append_eq_nil_iff.1 huv.symm).2 hv
  | case2 | case4 => cases h
  | case3 b rest hb hquotes ih =>
    obtain ⟨s, hs, rfl⟩ := Option.map_eq_some_iff.1 h
    obtain ⟨hrest, hbytes, hfirst⟩ := ih hs
    have ht : b :: rest = b :: s ++ 39 :: 39 :: 39 :: rest.drop (s.length + 3) :=
      congrArg (b :: ·) hrest
    refine ⟨ht, List.forall_mem_cons.2 ⟨?_, hbytes⟩, fun u v huv hv => ?_⟩
    · rw [Bool.or_eq_true, isPlain_iff, isBreak_iff, or_assoc] at hb
      exact hb
    · cases u with
      | nil =>
        rw [List.nil_append] at huv
        rw [← huv]
        intro hprefix
        exact hquotes (List.isPrefixOf_iff_prefix.2 (ht ▸ hprefix))
      | cons c u => exact hfirst u v (List.cons.inj huv).2 hv

theorem stringAt_of_longLiteral? {t s : Text} {n : Nat} (h : longLiteral? t = some (s, n)) :
    StringAt s t (t.drop n) := by
  unfold longLiteral? at h
  split at h
  · rename_i u
    simp only [drop_length_takeWhile] at h
    obtain ⟨s, hbody, heq⟩ := Option.map_eq_some_iff.1 h
    obtain ⟨rfl, rfl⟩ := Prod.mk.inj heq
    obtain ⟨e, he, hu, hend⟩ := exists_lineEnds u
    obtain ⟨hrest, hbytes, hfirst⟩ := longLiteralBody?_eq_some hbody
    have hdrop : (39 :: 39 :: 39 :: u).drop (s.length + (u.takeWhile isBreak).length + 6) =
        (u.dropWhile isBreak).drop (s.length + 3) := by
      rw [← drop_length_takeWhile isBreak u, List.drop_drop, Nat.add_comm s.length, Nat.add_assoc]
      rfl
    rw [hdrop]
    nth_rewrite 1 [hu]
    nth_rewrite 1 [hrest]
    refine .longLiteral he (fun b hb => hend b ?_) hbytes hfirst
    rw [hrest]
    exact List.mem_head?_append_of_mem_head? hb
  · cases h

variable {total : Nat}

theorem readString_eq_ok {t s : Text} {found : Option (Option Text × Nat)}
    {p : Parsed (Readable Text) t} (h : readString total t found = some p) (hs : p.value = .ok s) :
    ∃ n, found = some (some s, n) ∧ p.rest = t.drop n := by
  unfold readString at h
  split at h
  · rename_i s' n
    obtain ⟨hvalue, hrest, -⟩ := Parsed.take?_eq_some h
    obtain rfl := Except.ok.inj (hs.symm.trans hvalue)
    exact ⟨n, rfl, hrest⟩
  · obtain ⟨hvalue, -, -⟩ := Parsed.take?_eq_some h
    cases hs.symm.trans hvalue
  · cases h

/-- **A string that is read stands for what is read**, if it stands for a text. -/
theorem stringAt_of_string {t : Text} {p : Parsed (Readable Value) t}
    (h : string total t = some p) :
    (∃ s, p.value = .ok (.string s) ∧ StringAt s t p.rest) ∨ ∃ line, p.value = .error line := by
  rw [string] at h
  split at h
  · rename_i s n hfound
    obtain ⟨hvalue, hrest, -⟩ := Parsed.take?_eq_some h
    refine .inl ⟨s, hvalue, ?_⟩
    rw [hrest]
    rcases (Option.orElse_eq_some _ _ _).1 hfound with hlong | ⟨-, hliteral⟩
    · exact stringAt_of_longLiteral? hlong
    · exact stringAt_of_literalString? hliteral
  · obtain ⟨q, hq, rfl⟩ := Option.map_eq_some_iff.1 h
    cases hs : q.value with
    | error line => exact .inr ⟨line, congrArg (Except.map Value.string) hs⟩
    | ok s =>
      refine .inl ⟨s, congrArg (Except.map Value.string) hs, ?_⟩
      obtain ⟨n, hfound, hrest⟩ := readString_eq_ok hq hs
      rw [show (q.map fun s => s.map Value.string).rest = q.rest from rfl, hrest]
      rcases (Option.orElse_eq_some _ _ _).1 hfound with hlong | ⟨-, hbasic⟩
      · exact stringAt_of_longString? hlong
      · obtain ⟨w, hw, ht⟩ := stands_of_basicString? hbasic
        nth_rewrite 1 [ht]
        exact .basic hw

/-! ### Integers -/

/-- Digits, where one underscore may stand before each. -/
inductive IsDigitRun : Text → Prop where
  | nil : IsDigitRun []
  | digit {d : UInt8} {w : Text} : Text.isDigit d = true → IsDigitRun w → IsDigitRun (d :: w)
  | underscore {d : UInt8} {w : Text} :
      Text.isDigit d = true → IsDigitRun w → IsDigitRun (95 :: d :: w)

/-- An integer: a sign maybe, and a zero or digits that do not begin with a zero and go on as far as
they can. The underscores do not count. -/
inductive IntegerAt : (digits t rest : Text) → Prop where
  | mk {sign w rest : Text} {d : UInt8} : sign ∈ [[], [43], [45]] → Text.isDigit d = true →
      IsDigitRun w → (d = 48 → w = []) → (d ≠ 48 → ∀ v, v ≠ [] → IsDigitRun v → ¬ v <+: rest) →
      IntegerAt ((sign ++ d :: w).filter (· != 95)) (sign ++ d :: (w ++ rest)) rest

theorem isDigitRun_take (t : Text) :
    IsDigitRun (t.take (digitRun t)) ∧ ∀ v, v ≠ [] → IsDigitRun v →
      ¬ v <+: t.drop (digitRun t) := by
  fun_induction digitRun t with
  | case1 d t hd ih => exact ⟨.underscore hd ih.1, ih.2⟩
  | case2 d t hd =>
    refine ⟨.nil, fun v hv hrun hprefix => ?_⟩
    cases hrun with
    | nil => exact hv rfl
    | digit hd' _ =>
      obtain ⟨rfl, -⟩ := List.cons_prefix_cons.1 hprefix
      cases hd'
    | underscore hd' _ =>
      obtain ⟨rfl, -⟩ := List.cons_prefix_cons.1 (List.cons_prefix_cons.1 hprefix).2
      exact hd hd'
  | case3 d t _ hd ih => exact ⟨.digit hd ih.1, ih.2⟩
  | case4 d t hunderscore hd =>
    refine ⟨.nil, fun v hv hrun hprefix => ?_⟩
    cases hrun with
    | nil => exact hv rfl
    | digit hd' _ =>
      obtain ⟨rfl, -⟩ := List.cons_prefix_cons.1 hprefix
      exact hd hd'
    | underscore _ _ =>
      obtain ⟨rfl, u, hu⟩ := List.cons_prefix_cons.1 hprefix
      exact hunderscore _ _ rfl hu.symm
  | case5 => exact ⟨.nil, fun v hv _ hprefix => hv (List.prefix_nil.1 hprefix)⟩

theorem take_signLength (t : Text) : t.take (signLength t) ∈ [[], [43], [45]] := by
  cases t with
  | nil => exact List.mem_cons_self
  | cons b t =>
    rw [signLength]
    split_ifs with hb
    · rw [Bool.or_eq_true, decide_eq_true_eq, decide_eq_true_eq] at hb
      rcases hb with rfl | rfl <;> simp
    · exact List.mem_cons_self

/-- The length of an integer is that of the integer at the front of the text. -/
theorem integerAt_of_integerLength {t : Text} (h : integerLength t ≠ 0) :
    IntegerAt ((t.take (integerLength t)).filter (· != 95)) t (t.drop (integerLength t)) := by
  rw [integerLength] at h ⊢
  split_ifs at h ⊢ with hunsigned
  · exact absurd rfl h
  have hsign := take_signLength t
  have ht := List.take_append_drop (signLength t) t
  rw [List.take_add, ← List.drop_drop]
  generalize t.take (signLength t) = sign at *
  generalize t.drop (signLength t) = v at *
  subst ht
  cases v with
  | nil => exact absurd rfl hunsigned
  | cons d u =>
    rw [unsignedLength] at hunsigned ⊢
    split_ifs at hunsigned ⊢ with hd hzero
    · exact .mk hsign hd .nil (fun _ => rfl) fun hne => absurd hzero hne
    · obtain ⟨hrun, hlongest⟩ := isDigitRun_take u
      have hmk := IntegerAt.mk hsign hd hrun (fun h => absurd h hzero) (fun _ => hlongest)
      rwa [List.take_append_drop] at hmk
    · exact absurd rfl hunsigned

/-- **A number that is read is an integer**, or else a float. -/
theorem integerAt_of_number {t : Text} {p : Parsed Value t} (h : number t = some p) :
    (∃ digits, p.value = .integer digits ∧ IntegerAt digits t p.rest) ∨
      ∃ digits, p.value = .float digits := by
  rw [number] at h
  dsimp only at h
  split_ifs at h with hlength hplain
  · obtain ⟨hvalue, hrest, -⟩ := Parsed.take?_eq_some h
    refine .inl ⟨_, hvalue, ?_⟩
    rw [hrest]
    exact integerAt_of_integerLength hlength
  · obtain ⟨hvalue, -, -⟩ := Parsed.take?_eq_some h
    exact .inr ⟨_, hvalue⟩

/-! ### Keys -/

/-- A key, with quotes or without. -/
inductive KeyAt : (k t rest : Text) → Prop where
  | bare {k rest : Text} : IsKey k → KeyAt k (k ++ rest) rest
  | quoted {w k rest : Text} : Stands false w k → KeyAt k (34 :: (w ++ 34 :: rest)) rest

/-- **A key that is read is one.** -/
theorem keyAt_of_key {t k : Text} {p : Parsed (Readable Text) t} (h : key total t = some p)
    (hk : p.value = .ok k) : KeyAt k t p.rest := by
  rw [key] at h
  split_ifs at h
  · obtain ⟨n, hfound, hrest⟩ := readString_eq_ok h hk
    obtain ⟨w, hw, ht⟩ := stands_of_basicString? hfound
    rw [hrest]
    nth_rewrite 1 [ht]
    exact .quoted hw
  · obtain ⟨hvalue, hrest, hpos, -⟩ := Parsed.take?_eq_some h
    obtain rfl := Except.ok.inj (hk.symm.trans hvalue)
    rw [hrest, drop_length_takeWhile]
    nth_rewrite 2 [← List.takeWhile_append_dropWhile (p := isKeyByte) (l := t)]
    exact .bare ⟨List.length_pos_iff.1 hpos, fun b hb => List.mem_takeWhile_imp hb⟩

end Toml

end Scriptlet
