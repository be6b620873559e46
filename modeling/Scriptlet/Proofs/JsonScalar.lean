import Scriptlet.Proofs.Digits
import Scriptlet.Proofs.JsonReader
import Scriptlet.Proofs.Utf8

/-!
# Strings and numbers in JSON

What is written for a string is read as the string with `U+FFFD` for every byte that starts no
character (`reads_text`): each character is read as it is or, if it was escaped, from its escape.
What is written for a number, with a point or a power of ten or without, is a numeral (`IsNumeral`),
and a numeral is read as its number if nothing behind it would continue it (`IsNumeral.reads`).
-/

namespace Scriptlet

open Rune (IsScalar)

namespace JsonValue

open Toml (Reader hexNumber?_hex)
open Text (length_hex)

/-- The reader finds `a` at the front of the text and leaves `rest`. -/
def Reads {α : Type} (p : Reader α) (t : Text) (a : α) (rest : Text) : Prop :=
  ∃ h, p t = some ⟨a, rest, h⟩

theorem upTo?_eq {α : Type} {a : α} {rest t : Text} (h : rest.length < t.length) :
    upTo? a rest t = some ⟨a, rest, h⟩ := dif_pos h

/-! ### Strings -/

/-- Four digits for a character that is no surrogate. -/
theorem reads_unicode {c : Nat} (hc : c < 0xD800 ∨ 0xDC00 ≤ c) (h : c < 0x10000) (t : Text) :
    Reads unicode (Text.hex 4 c ++ t) (Rune.encode c) t := by
  have hdrop : (Text.hex 4 c ++ t).drop 4 = t := by
    rw [List.drop_append, length_hex, List.drop_eq_nil_of_le (by rw [length_hex])]
    simp
  have hlow : low? c t = none := by
    unfold low?
    split
    · rw [if_neg (by simp; omega)]
    · rfl
  refine ⟨by rw [List.length_append, length_hex]; omega, ?_⟩
  simp only [unicode, hexNumber?_hex (w := 4) h, hdrop, hlow]
  exact upTo?_eq _

/-- What is written for a character that is escaped is read as the character. -/
theorem exists_escape {c : Nat} {e : Text} (h : Json.escape? c = some e) :
    ∃ w, e = 92 :: w ∧ ∀ t, Reads escape (w ++ t) (Rune.encode c) t := by
  have one {b x : UInt8} (hb : b ≠ 117) (hx : escaped? b = some x) (t : Text) :
      Reads escape ([b] ++ t) [x] t :=
    ⟨by simp, by simp [escape, hb, hx]⟩
  unfold Json.escape? at h
  split at h
  · cases h; exact ⟨[98], rfl, one (by decide) rfl⟩
  · cases h; exact ⟨[116], rfl, one (by decide) rfl⟩
  · cases h; exact ⟨[110], rfl, one (by decide) rfl⟩
  · cases h; exact ⟨[102], rfl, one (by decide) rfl⟩
  · cases h; exact ⟨[114], rfl, one (by decide) rfl⟩
  · cases h; exact ⟨[34], rfl, one (by decide) rfl⟩
  · cases h; exact ⟨[92], rfl, one (by decide) rfl⟩
  · simp only [Bool.or_eq_true, decide_eq_true_eq, Option.ite_none_right_eq_some,
      Option.some.injEq] at h
    obtain ⟨hc, rfl⟩ := h
    refine ⟨117 :: Text.hex 4 c, rfl, fun t => ?_⟩
    obtain ⟨hlt, hu⟩ := reads_unicode (c := c) (by omega) (by omega) t
    exact ⟨Nat.lt_succ_of_lt hlt, by simp [escape, hu, Parsed.weaken]⟩

theorem plain_of_escape? {c : Nat} (h : Json.escape? c = none) : 32 ≤ c ∧ c ≠ 34 ∧ c ≠ 92 := by
  unfold Json.escape? at h
  split at h
  case h_8 h34 h92 =>
    refine ⟨?_, h34, h92⟩
    by_contra hsmall
    rw [if_pos (by simp; omega)] at h
    cases h
  all_goals cases h

theorem Reads.body_escape {w c t s rest : Text} (hw : ∀ t, Reads escape (w ++ t) c t)
    (h : Reads body t s rest) : Reads body (92 :: (w ++ t)) (c ++ s) rest := by
  obtain ⟨hlt, he⟩ := hw t
  obtain ⟨hlt', hb⟩ := h
  refine ⟨Nat.lt_succ_of_lt (Nat.lt_trans hlt' hlt), ?_⟩
  rw [body]
  simp [he, hb, Parsed.map, Parsed.weaken]

theorem Reads.body_encode {c : Nat} (hc : IsScalar c) (hplain : 32 ≤ c ∧ c ≠ 34 ∧ c ≠ 92)
    {t s rest : Text} (h : Reads body t s rest) :
    Reads body (Rune.encode c ++ t) (Rune.encode c ++ s) rest := by
  obtain ⟨b, u, written, -, width, wellFormed⟩ := Rune.read_encode hc t
  have first : 32 ≤ b.toNat ∧ b.toNat ≠ 34 ∧ b.toNat ≠ 92 := by
    by_cases hsmall : c < 0x80
    · rw [Rune.encode_one hsmall] at written
      obtain ⟨rfl, -⟩ := List.cons.inj written
      rw [Nat.toUInt8_eq, UInt8.toNat_ofNat_of_lt' (Nat.lt_trans hsmall (by decide))]
      exact hplain
    · obtain ⟨b', u', written', hb', -⟩ := hc.exists_sequence (by omega)
      obtain ⟨rfl, -⟩ := List.cons.inj (written.symm.trans written')
      omega
  have h34 : b ≠ 34 := fun e => first.2.1 (by rw [e]; rfl)
  have h92 : b ≠ 92 := fun e => first.2.2 (by rw [e]; rfl)
  have h32 : ¬ b < 32 := by simpa [UInt8.lt_iff_toNat_lt] using first.1
  have hdrop : (b :: (u ++ t)).drop (Rune.read b (u ++ t)).width = t := by
    rw [width, written, ← List.cons_append, List.drop_left]
  have htake : (b :: (u ++ t)).take (Rune.read b (u ++ t)).width = b :: u := by
    rw [width, written, ← List.cons_append, List.take_left]
  rw [written, List.cons_append]
  obtain ⟨hlt, hbody⟩ : Reads body ((b :: (u ++ t)).drop (Rune.read b (u ++ t)).width) s rest := by
    rwa [hdrop]
  refine ⟨Nat.lt_of_lt_of_le hlt (by rw [List.length_drop]; omega), ?_⟩
  rw [body]
  simp only [h34, h92, h32, if_false, wellFormed, if_true, htake, hbody, Option.map_some,
    Parsed.map, Parsed.weaken, List.cons_append]

/-- The written form of a character is read as the character. -/
theorem Reads.body_written {c : Nat} (hc : IsScalar c) {t s rest : Text} (h : Reads body t s rest) :
    Reads body ((Json.escape? c).getD (Rune.encode c) ++ t) (Rune.encode c ++ s) rest := by
  cases he : Json.escape? c with
  | none => exact h.body_encode hc (plain_of_escape? he)
  | some e =>
    obtain ⟨w, rfl, hw⟩ := exists_escape he
    exact h.body_escape hw

theorem stringRune_encode {r : Rune} (hr : r.wellFormed = true) :
    Json.stringRune r (Rune.encode r.code) = (Json.escape? r.code).getD (Rune.encode r.code) := by
  rw [Json.stringRune, if_pos hr]
  cases Json.escape? r.code <;> rfl

theorem reads_body (t rest : Text) :
    Reads body ((Text.runes t).flatMap (fun r => Json.stringRune r.1 r.2) ++
      34 :: rest) t.repaired rest := by
  induction t using Text.runeInduction with
  | nil =>
    rw [Text.runes_nil, Text.repaired_nil, List.flatMap_nil, List.nil_append]
    exact ⟨Nat.lt_succ_self _, by rw [body]; rfl⟩
  | scalar c t hc ih =>
    obtain ⟨r, rfl, hr, e⟩ := Text.runes_encode hc t
    rw [Text.repaired_encode_append hc, e, List.flatMap_cons, List.append_assoc,
      stringRune_encode hr]
    exact ih.body_written hc
  | malformed b t hb ih =>
    rw [Text.repaired_malformed hb, Text.runes_malformed hb, List.flatMap_cons, List.append_assoc]
    exact ih.body_written Rune.isScalar_replacement

/-- **A string is read back**, with `U+FFFD` for every byte that starts no character. -/
theorem reads_text (t rest : Text) : Reads text (Json.quote t ++ rest) t.repaired rest := by
  obtain ⟨hlt, h⟩ := reads_body t rest
  have e : Json.quote t ++ rest =
      34 :: ((Text.runes t).flatMap (fun r => Json.stringRune r.1 r.2) ++ 34 :: rest) := by
    simp [Json.quote]
  rw [e]
  exact ⟨Nat.lt_succ_of_lt hlt, by simp [text, h, Parsed.weaken]⟩

/-! ### Numbers -/

/-- The text is at its end or goes on with one of the bytes. -/
def GoesOn (bs : List UInt8) (t : Text) : Prop := ∀ b ∈ t.head?, b ∈ bs

/-- What may stand behind a value: nothing, a comma or a closing byte. -/
def Follows (t : Text) : Prop := GoesOn [44, 93, 125] t

theorem GoesOn.digit {bs : List UInt8} {t : Text} (h : GoesOn bs t)
    (hbs : bs.all (fun b => !Text.isDigit b) = true) : ∀ b ∈ t.head?, Text.isDigit b = false := by
  intro b hb
  simpa using List.all_eq_true.1 hbs b (h b hb)

theorem digits?_append {ds t : Text} (hds : IsDigits ds)
    (ht : ∀ b ∈ t.head?, Text.isDigit b = false) : digits? (ds ++ t) = some (ds, t) := by
  have htake : (ds ++ t).takeWhile Text.isDigit = ds := by
    rw [List.takeWhile_append_of_pos hds.2]
    cases t with
    | nil => simp
    | cons b t => simp [ht b (by simp)]
  have hne : ds.isEmpty = false := by simpa using hds.1
  simp only [digits?, htake, hne, Bool.false_eq_true, if_false, List.drop_left]

/-- Digits that may stand in front of a point. -/
def IsWhole (w : Text) : Prop := w = [48] ∨ IsLeading w

theorem IsWhole.digits {w : Text} (h : IsWhole w) : IsDigits w := by
  rcases h with rfl | h
  · exact ⟨by simp, by simp [Text.isDigit]⟩
  · exact h.digits

theorem whole?_append {w t : Text} (hw : IsWhole w) (ht : ∀ b ∈ t.head?, Text.isDigit b = false) :
    whole? (w ++ t) = some (w, t) := by
  rcases hw with rfl | hw
  · rfl
  · obtain ⟨b, u, rfl⟩ := List.exists_cons_of_ne_nil hw.digits.1
    have hb : b ≠ 48 := fun e => hw.head (by rw [e]; rfl)
    have hwhole : whole? (b :: u ++ t) = digits? (b :: u ++ t) := by
      unfold whole?
      split
      · rename_i e
        exact absurd (List.cons.inj e).1 hb
      · rfl
    rw [hwhole, digits?_append hw.digits ht]

/-- A point and the digits behind it; nothing if there are none. -/
def fractionText (ds : Text) : Text := if ds = [] then [] else 46 :: ds

theorem fraction?_append {ds t : Text} (hds : ∀ b ∈ ds, Text.isDigit b = true)
    (ht : GoesOn [101, 44, 93, 125] t) : fraction? (fractionText ds ++ t) = some (ds, t) := by
  by_cases h : ds = []
  · subst h
    simp only [fractionText, if_true, List.nil_append]
    unfold fraction?
    split
    · have := ht 46 (by simp)
      simp at this
    · rfl
  · rw [fractionText, if_neg h]
    exact digits?_append ⟨h, hds⟩ (ht.digit (by decide))

/-- How the power `10 ^ e` is written: not at all, or with its sign. -/
def IsPower (p : Text) (e : Int) : Prop :=
  (p = [] ∧ e = 0) ∨
    ∃ (negative : Bool) (ds : Text), IsDigits ds ∧ p = 101 :: (if negative then 45 else 43) :: ds ∧
      e = signed negative (digitsValue ds)

theorem power?_append {p t : Text} {e : Int} (hp : IsPower p e) (ht : Follows t) :
    power? (p ++ t) = some (e, t) := by
  rcases hp with ⟨rfl, rfl⟩ | ⟨negative, ds, hds, rfl, rfl⟩
  · cases t with
    | nil => rfl
    | cons b t =>
      have hb := ht b (by simp)
      simp only [List.mem_cons, List.not_mem_nil, or_false] at hb
      rcases hb with rfl | rfl | rfl <;> rfl
  · have hdigits := digits?_append hds (ht.digit (by decide))
    cases negative with
    | false => simp [power?, hdigits]
    | true => simp [power?, hdigits]

/-- A text that is written for a number. -/
def IsNumeral (t : Text) (v : JsonValue) : Prop :=
  ∃ (negative : Bool) (w ds p : Text) (e : Int), IsWhole w ∧ (∀ b ∈ ds, Text.isDigit b = true) ∧
    IsPower p e ∧ t = (if negative then [45] else []) ++ (w ++ (fractionText ds ++ p)) ∧
    v = number (signed negative (digitsValue (w ++ ds))) (e - ds.length)

theorem IsNumeral.exists_cons {t : Text} {v : JsonValue} (h : IsNumeral t v) :
    ∃ b u, t = b :: u ∧ (b = 45 ∨ Text.isDigit b = true) := by
  obtain ⟨negative, w, ds, p, e, hw, -, -, rfl, -⟩ := h
  obtain ⟨b, u, rfl⟩ := List.exists_cons_of_ne_nil hw.digits.1
  cases negative with
  | false => exact ⟨b, _, rfl, .inr (hw.digits.2 b List.mem_cons_self)⟩
  | true => exact ⟨45, _, rfl, .inl rfl⟩

/-- **A numeral is read as its number.** -/
theorem IsNumeral.reads {t : Text} {v : JsonValue} (h : IsNumeral t v) (rest : Text)
    (hrest : Follows rest) :
    Reads numeral (t ++ rest) v rest := by
  obtain ⟨negative, w, ds, p, e, hw, hds, hp, rfl, rfl⟩ := h
  have hpower : GoesOn [101, 44, 93, 125] (p ++ rest) := by
    rcases hp with ⟨rfl, -⟩ | ⟨_, _, _, rfl, -⟩
    · exact fun b hb => List.mem_cons_of_mem _ (hrest b hb)
    · rintro _ ⟨⟩
      simp
  have hfraction : GoesOn [46, 101, 44, 93, 125] (fractionText ds ++ (p ++ rest)) := by
    by_cases hnil : ds = []
    · rw [fractionText, if_pos hnil]
      exact fun b hb => List.mem_cons_of_mem _ (hpower b hb)
    · rw [fractionText, if_neg hnil]
      rintro _ ⟨⟩
      simp
  have hunsigned : unsigned? negative (w ++ (fractionText ds ++ (p ++ rest))) =
      some (number (signed negative (digitsValue (w ++ ds))) (e - ds.length), rest) := by
    simp only [unsigned?, whole?_append hw (hfraction.digit (by decide)),
      fraction?_append hds hpower, power?_append hp hrest, Option.bind_eq_bind, Option.bind_some,
      Option.pure_def]
  have hlt : rest.length < (w ++ (fractionText ds ++ (p ++ rest))).length := by
    have := List.length_pos_iff.2 hw.digits.1
    simp only [List.length_append]
    omega
  simp only [List.append_assoc]
  cases negative with
  | true =>
    refine ⟨Nat.lt_succ_of_lt hlt, ?_⟩
    simp only [numeral, if_true, List.cons_append, List.nil_append, hunsigned, Option.bind_some]
    exact upTo?_eq _
  | false =>
    obtain ⟨b, u, rfl⟩ := List.exists_cons_of_ne_nil hw.digits.1
    have hb : b ≠ 45 := by
      rintro rfl
      exact absurd (hw.digits.2 45 List.mem_cons_self) (by decide)
    refine ⟨hlt, ?_⟩
    simp only [numeral, Bool.false_eq_true, if_false, List.nil_append]
    split
    · rename_i e'
      exact absurd (List.cons.inj e').1 hb
    · rw [hunsigned, Option.bind_some]
      exact upTo?_eq _

theorem isWhole_ofNat (n : Nat) : IsWhole (Text.ofNat n) := by
  by_cases hn : n = 0
  · subst hn
    exact .inl rfl
  · exact .inr (Text.isLeading_ofNat hn)

theorem isNumeral_ofInt (i : Int) : IsNumeral (Text.ofInt i) (number i 0) := by
  refine ⟨decide (i < 0), Text.ofNat i.natAbs, [], [], 0, isWhole_ofNat _, by simp,
    .inl ⟨rfl, rfl⟩, ?_, ?_⟩
  · by_cases hi : i < 0
    · simp [Text.ofInt, hi, fractionText]
    · simp [Text.ofInt, hi, fractionText]
  · rw [List.append_nil, digitsValue_ofNat]
    simp only [signed, decide_eq_true_eq, List.length_nil, number.injEq]
    split <;> omega

/-- Digits with the point where it belongs. -/
theorem exists_positional {ds : Text} {point : Int} (h : IsLeading ds ∨ (ds = [48] ∧ point = 1)) :
    ∃ w fs, IsWhole w ∧ (∀ b ∈ fs, Text.isDigit b = true) ∧
      Binary64.positional ds point = w ++ fractionText fs := by
  have zeros (n : Nat) : ∀ b ∈ List.replicate n (48 : UInt8), Text.isDigit b = true := by
    intro b hb
    rw [List.eq_of_mem_replicate hb]
    rfl
  have hdigits : IsDigits ds := by
    rcases h with h | ⟨rfl, -⟩
    · exact h.digits
    · exact IsWhole.digits (.inl rfl)
  unfold Binary64.positional
  split
  · refine ⟨[48], List.replicate (-point).toNat 48 ++ ds, .inl rfl,
      List.forall_mem_append.2 ⟨zeros _, hdigits.2⟩, ?_⟩
    rw [fractionText, if_neg (by simp [hdigits.1])]
    rfl
  · rename_i hpos
    split
    · rename_i hlen
      refine ⟨ds ++ List.replicate (point.toNat - ds.length) 48, [], ?_, by simp,
        by simp [fractionText]⟩
      rcases h with h | ⟨rfl, rfl⟩
      · exact .inr (h.append (zeros _))
      · exact .inl rfl
    · rename_i hlen
      have htake : ds.take point.toNat ≠ [] := by
        simp only [ne_eq, List.take_eq_nil_iff, not_or]
        exact ⟨by omega, hdigits.1⟩
      have hdrop : ds.drop point.toNat ≠ [] := by
        simp only [ne_eq, List.drop_eq_nil_iff]
        omega
      refine ⟨ds.take point.toNat, ds.drop point.toNat, ?_,
        fun b hb => hdigits.2 b (List.mem_of_mem_drop hb), ?_⟩
      · rcases h with h | ⟨rfl, rfl⟩
        · exact .inr (h.of_prefix (List.take_prefix _ _) htake)
        · exact .inl rfl
      · rw [fractionText, if_neg hdrop, List.append_assoc]
        rfl

/-- Digits with a power of ten. -/
theorem exists_scientific {ds : Text} (h : IsWhole ds) (point : Int) :
    ∃ w fs p e, IsWhole w ∧ (∀ b ∈ fs, Text.isDigit b = true) ∧ IsPower p e ∧
      Binary64.scientific 1 ds point = w ++ (fractionText fs ++ p) := by
  obtain ⟨b, t, rfl⟩ := List.exists_cons_of_ne_nil h.digits.1
  have hpower := Text.isDigits_ofNat (point - 1).natAbs
  have hpos := List.length_pos_iff.2 hpower.1
  refine ⟨[b], t, 101 :: (if decide (point - 1 < 0) then 45 else 43) ::
    Text.ofNat (point - 1).natAbs,
    signed (decide (point - 1 < 0)) (digitsValue (Text.ofNat (point - 1).natAbs)), ?_, ?_,
    .inr ⟨_, _, hpower, rfl, rfl⟩, ?_⟩
  · rcases h with h | h
    · exact .inl (by simpa using (List.cons.inj h).1)
    · exact .inr (h.of_prefix ⟨t, rfl⟩ (by simp))
  · exact fun x hx => h.digits.2 x (List.mem_cons_of_mem b hx)
  · have hfraction : (if (b :: t).length ≤ 1 then [] else utf8 "." ++ (b :: t).drop 1) =
        fractionText t := by
      cases t <;> rfl
    have hsign : utf8 (if point - 1 < 0 then "e-" else "e+") =
        [101, if decide (point - 1 < 0) then 45 else 43] := by
      by_cases hneg : point - 1 <
        0 <;> simp only [hneg, if_true, if_false, decide_true, decide_false] <;> rfl
    simp only [Binary64.scientific, hfraction, hsign, Nat.sub_eq_zero_of_le hpos,
      List.replicate_zero]
    simp

/-- **What is written for a finite number is a numeral.** -/
theorem exists_isNumeral (negative : Bool) (m : Nat) (e : Int) :
    ∃ a k, IsNumeral ((Binary64.finite negative m e).toText Json.numberLayout) (number a k) := by
  have numeral {written : Text} (h : ∃ w fs p e, IsWhole w ∧ (∀ b ∈ fs, Text.isDigit b = true) ∧
      IsPower p e ∧ written = w ++ (fractionText fs ++ p)) :
      ∃ a k, IsNumeral ((if negative then utf8 "-" else []) ++ written) (number a k) := by
    obtain ⟨w, fs, p, e, hw, hfs, hp, rfl⟩ := h
    exact ⟨_, _, negative, w, fs, p, e, hw, hfs, hp, rfl, rfl⟩
  simp only [Binary64.toText]
  split
  · exact numeral ⟨[48], [], [], 0, .inl rfl, by simp, .inl ⟨rfl, rfl⟩, rfl⟩
  · rename_i hm
    have hcases := Binary64.shortestDigits_cases hm e
    refine numeral ?_
    split
    · obtain ⟨w, fs, hw, hfs, hwritten⟩ := exists_positional (hcases.imp_right Prod.ext_iff.1)
      exact ⟨w, fs, [], 0, hw, hfs, .inl ⟨rfl, rfl⟩, by rw [hwritten, List.append_nil]⟩
    · refine exists_scientific ?_ _
      rcases hcases with h | h
      · exact .inr h
      · exact .inl (by rw [h])

end JsonValue

end Scriptlet
