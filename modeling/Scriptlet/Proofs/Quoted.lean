import Scriptlet.Proofs.Digits
import Scriptlet.Proofs.Utf8
import Scriptlet.Text.Quoted

/-!
# Quoted text in TOML

A quoted text is well-formed UTF-8, whatever it stands for, and it looks like a string of TOML. But
quoting knows escapes that TOML does not have: those of some controls, and those of malformed bytes.
A quoted text is a string of TOML if none of these is needed (`Text.isPortable`), and then it stands
for the text; otherwise it is no string at all (`Toml.stringBody?_inQuotes`).
-/

namespace Scriptlet

open Rune (IsScalar)

namespace Text

/-- Has the character no escape, or one that TOML knows? -/
def isPortableCode (code : Nat) : Bool :=
  (0x20 ≤ code && code != 0x7F) || [8, 9, 10, 12, 13].contains code

/-- Does quoting the text need no other escapes than those of TOML? -/
def isPortable (t : Text) : Bool := (runes t).all fun r => r.1.wellFormed && isPortableCode r.1.code

/-- What stands between the quotes. -/
def inQuotes (t : Text) : Text := (runes t).flatMap fun r => quotedRune r.1 r.2

/-- How a character is written between the quotes. -/
def quotedCode (c : Nat) : Text :=
  match shortEscape? c with
  | some e => e
  | none =>
    if isPrintable c then Rune.encode c
    else if c < 0x20 || c = 0x7F then utf8 "\\x" ++ hex 2 c
    else if c < 0x10000 then utf8 "\\u" ++ hex 4 c
    else utf8 "\\U" ++ hex 8 c

theorem quoted_eq (t : Text) : quoted t = 34 :: (inQuotes t ++ [34]) := rfl

theorem inQuotes_nil : inQuotes [] = [] := by
  rw [inQuotes, runes_nil, List.flatMap_nil]

theorem inQuotes_encode {c : Nat} (hc : IsScalar c) (t : Text) :
    inQuotes (Rune.encode c ++ t) = quotedCode c ++ inQuotes t := by
  obtain ⟨r, rfl, hr, e⟩ := runes_encode hc t
  rw [inQuotes, e, List.flatMap_cons, quotedRune, if_pos hr]
  rfl

theorem inQuotes_malformed {b : UInt8} {t : Text} (h : (Rune.read b t).wellFormed = false) :
    inQuotes (b :: t) = utf8 "\\x" ++ hex 2 b.toNat ++ inQuotes t := by
  simp [inQuotes, runes_malformed h, quotedRune, Rune.malformed]

theorem isPortable_nil : isPortable [] = true := by
  rw [isPortable, runes_nil, List.all_nil]

theorem isPortable_encode {c : Nat} (hc : IsScalar c) (t : Text) :
    isPortable (Rune.encode c ++ t) = (isPortableCode c && isPortable t) := by
  obtain ⟨r, rfl, hr, e⟩ := runes_encode hc t
  simp [isPortable, e, hr]

theorem isPortable_malformed {b : UInt8} {t : Text} (h : (Rune.read b t).wellFormed = false) :
    isPortable (b :: t) = false := by
  simp [isPortable, runes_malformed h, Rune.malformed]

/-- A character that is not printed as it is begins with a backslash, and none begins with a
quote. -/
theorem head?_quotedCode {c : Nat} (hc : IsScalar c) : (quotedCode c).head? ≠ some 34 := by
  have hslash : some (92 : UInt8) ≠ some 34 := by decide
  rw [quotedCode]
  split
  · rename_i e he
    unfold shortEscape? at he
    split at he <;> cases he <;> decide
  · rename_i hnone
    split_ifs
    · have hne : c ≠ 34 := by
        rintro rfl
        cases hnone
      by_cases hsmall : c < 0x80
      · rw [Rune.encode_one hsmall, List.head?_cons, ne_eq, Option.some_inj, ← UInt8.toNat_inj,
          Nat.toUInt8_eq, UInt8.toNat_ofNat_of_lt' (Nat.lt_trans hsmall (by decide))]
        exact hne
      · obtain ⟨b, u, e, -, hs⟩ := hc.exists_sequence (by omega)
        have := hs.not_ascii b List.mem_cons_self
        rw [e, List.head?_cons, ne_eq, Option.some_inj]
        rintro rfl
        exact absurd this (by decide)
    · exact hslash
    · exact hslash
    · exact hslash

theorem head?_inQuotes (t : Text) : (inQuotes t).head? ≠ some 34 := by
  induction t using runeInduction with
  | nil =>
    rw [inQuotes_nil]
    exact fun h => by cases h
  | scalar c t hc ih =>
    rw [inQuotes_encode hc, List.head?_append]
    cases hhead : (quotedCode c).head? with
    | none => exact ih
    | some b =>
      intro h
      exact head?_quotedCode hc (hhead.trans h)
  | malformed b t hb _ =>
    have hslash : some (92 : UInt8) ≠ some 34 := by decide
    rw [inQuotes_malformed hb]
    exact hslash

/-! ### Well-formed UTF-8 -/

theorem isAscii_hex (w n : Nat) : (hex w n).isAscii = true := by
  have digit : ∀ m : Fin 16, (hexDigit m.val).toNat < 0x80 := by decide
  rw [isAscii_iff]
  intro b hb
  obtain ⟨d, rfl⟩ := exists_hexDigit_of_mem hb
  exact digit d

theorem isWellFormed_escape {e : Text} (he : e.isAscii = true) (w n : Nat) :
    (e ++ hex w n).isWellFormed = true :=
  isWellFormed_append (isWellFormed_of_isAscii he) (isWellFormed_of_isAscii (isAscii_hex w n))

theorem isWellFormed_shortEscape {c : Nat} {e : Text} (h : shortEscape? c = some e) :
    e.isWellFormed = true := by
  apply isWellFormed_of_isAscii
  unfold shortEscape? at h
  split at h <;> cases h <;> rfl

theorem isWellFormed_quotedCode {c : Nat} (hc : IsScalar c) :
    (quotedCode c).isWellFormed = true := by
  rw [quotedCode]
  split
  · rename_i e he
    exact isWellFormed_shortEscape he
  · split_ifs
    · have := isWellFormed_encode_append hc []
      rwa [List.append_nil, isWellFormed_nil] at this
    · exact isWellFormed_escape rfl 2 c
    · exact isWellFormed_escape rfl 4 c
    · exact isWellFormed_escape rfl 8 c

theorem isWellFormed_inQuotes (t : Text) : (inQuotes t).isWellFormed = true := by
  induction t using runeInduction with
  | nil => rw [inQuotes_nil, isWellFormed_nil]
  | scalar c t hc ih =>
    rw [inQuotes_encode hc]
    exact isWellFormed_append (isWellFormed_quotedCode hc) ih
  | malformed b t hb ih =>
    rw [inQuotes_malformed hb]
    exact isWellFormed_append (isWellFormed_escape rfl 2 b.toNat) ih

/-- **A quoted text is well formed**, whatever it stands for. -/
theorem isWellFormed_quoted (t : Text) : (quoted t).isWellFormed = true := by
  rw [quoted_eq, isWellFormed_cons (by decide)]
  exact isWellFormed_append (isWellFormed_inQuotes t) (isWellFormed_of_isAscii rfl)

theorem bounds_of_isPrintable {c : Nat} (h : isPrintable c = true) : 0x20 ≤ c ∧ c ≠ 0x7F := by
  have ranges : printableRanges.toList.all (fun r => 0x20 ≤ r.1 && (r.2 < 0x7F || 0x7F < r.1)) =
      true := by
    decide +kernel
  obtain ⟨r, hr, hc⟩ := Array.any_eq_true'.1 h
  have := List.all_eq_true.1 ranges r (Array.mem_toList_iff.2 hr)
  simp only [Bool.and_eq_true, Bool.or_eq_true, decide_eq_true_eq] at this hc
  omega

end Text

namespace Toml

/-! ### Pieces of a string -/

/-- How a string on one line goes on. -/
theorem stringBody?_cons (b : UInt8) (t : Text) :
    stringBody? false (b :: t) =
      if b = 34 then some (some [], 1)
      else if b = 92 then
        (escape? t).bind fun e =>
          (stringBody? false (t.drop e.2)).map
            fun body => (appendPieces e.1 body.1, e.2 + body.2 + 1)
      else if b < 32 then none
      else (stringBody? false t).map fun body => (appendPieces (some [b]) body.1, body.2 + 1) := by
  rw [stringBody?]
  cases escape? t with
  | none => simp
  | some e => simp

/-- The piece stands for the text `p` in a string. -/
def StandsFor (w p : Text) : Prop :=
  ∀ u, stringBody? false (w ++ u) = (stringBody? false u).map
    fun body => (appendPieces (some p) body.1, w.length + body.2)

/-- No string has the piece at its front. -/
def BreaksOff (w : Text) : Prop := ∀ u, stringBody? false (w ++ u) = none

theorem standsFor_escape {w : Text} {p : Text}
    (h : ∀ u, escape? (w ++ u) = some (some p, w.length)) : StandsFor (92 :: w) p := by
  intro u
  rw [List.cons_append, stringBody?_cons, if_neg (by decide), if_pos rfl]
  rw [h, Option.bind_some, List.drop_left]
  cases stringBody? false u <;> simp [Nat.add_right_comm]

theorem breaksOff_escape {w : Text} (h : ∀ u, escape? (w ++ u) = none) : BreaksOff (92 :: w) := by
  intro u
  rw [List.cons_append, stringBody?_cons, if_neg (by decide), if_pos rfl, h, Option.bind_none]

theorem StandsFor.nil : StandsFor [] [] := by
  intro u
  rw [List.nil_append]
  cases stringBody? false u with
  | none => rfl
  | some body =>
    obtain ⟨q, n⟩ := body
    cases q <;> simp [appendPieces]

theorem StandsFor.append {w w' p p' : Text} (h : StandsFor w p) (h' : StandsFor w' p') :
    StandsFor (w ++ w') (p ++ p') := by
  intro u
  rw [List.append_assoc, h, h']
  cases stringBody? false u with
  | none => rfl
  | some body =>
    obtain ⟨q, n⟩ := body
    cases q <;> simp [appendPieces, Nat.add_assoc]

theorem StandsFor.byte {b : UInt8} (h : 32 ≤ b.toNat) (h34 : b.toNat ≠ 34) (h92 : b.toNat ≠ 92) :
    StandsFor [b] [b] := by
  intro u
  have hquote : b ≠ 34 := fun e => h34 (by rw [e]; rfl)
  have hslash : b ≠ 92 := fun e => h92 (by rw [e]; rfl)
  have hcontrol : ¬ b < 32 := by simpa [UInt8.lt_iff_toNat_lt] using h
  rw [List.singleton_append, stringBody?_cons, if_neg hquote, if_neg hslash, if_neg hcontrol]
  cases stringBody? false u <;> simp [Nat.add_comm]

theorem StandsFor.bytes {w : Text} (h : ∀ b ∈ w, 32 ≤ b.toNat ∧ b.toNat ≠ 34 ∧ b.toNat ≠ 92) :
    StandsFor w w := by
  induction w with
  | nil => exact .nil
  | cons b w ih =>
    obtain ⟨⟨hb, h34, h92⟩, hw⟩ := List.forall_mem_cons.1 h
    exact (StandsFor.byte hb h34 h92).append (ih hw)

/-! ### Characters -/

theorem character?_of_isScalar {c : Nat} (hc : IsScalar c) :
    character? c = some (Rune.encode c) := by
  rw [character?, if_neg]
  unfold IsScalar at hc
  simp only [Bool.or_eq_true, Bool.and_eq_true, decide_eq_true_eq]
  omega

/-- A character that is printed as it is stands for itself. -/
theorem standsFor_encode {c : Nat} (hc : IsScalar c) (hplain : 32 ≤ c ∧ c ≠ 34 ∧ c ≠ 92) :
    StandsFor (Rune.encode c) (Rune.encode c) := by
  apply StandsFor.bytes
  by_cases hsmall : c < 0x80
  · rw [Rune.encode_one hsmall, List.forall_mem_singleton, Nat.toUInt8_eq,
      UInt8.toNat_ofNat_of_lt' (Nat.lt_trans hsmall (by decide))]
    exact hplain
  · obtain ⟨b, u, e, -, hs⟩ := hc.exists_sequence (by omega)
    intro x hx
    rw [e] at hx
    have := hs.not_ascii x hx
    omega

theorem standsFor_hex {c : Nat} (hc : IsScalar c) :
    (c < 0x10000 → StandsFor (utf8 "\\u" ++ Text.hex 4 c) (Rune.encode c)) ∧
      StandsFor (utf8 "\\U" ++ Text.hex 8 c) (Rune.encode c) := by
  have hlarge : c < Nat.pow 16 8 := by
    unfold IsScalar at hc
    show c < 4294967296
    omega
  constructor
  · intro h
    apply standsFor_escape (w := 117 :: Text.hex 4 c)
    intro u
    simp [escape?, hexNumber?_hex (w := 4) h, character?_of_isScalar hc, Text.length_hex]
  · apply standsFor_escape (w := 85 :: Text.hex 8 c)
    intro u
    simp [escape?, hexNumber?_hex hlarge, character?_of_isScalar hc, Text.length_hex]

theorem breaksOff_hex (n : Nat) : BreaksOff (utf8 "\\x" ++ Text.hex 2 n) :=
  breaksOff_escape (w := 120 :: Text.hex 2 n) fun _ => rfl

theorem piece_shortEscape {c : Nat} {e : Text} (h : Text.shortEscape? c = some e) :
    if Text.isPortableCode c then StandsFor e (Rune.encode c) else BreaksOff e := by
  unfold Text.shortEscape? at h
  split at h <;> cases h
  · exact breaksOff_escape (w := [97]) fun _ => rfl
  · exact standsFor_escape (w := [98]) fun _ => rfl
  · exact standsFor_escape (w := [116]) fun _ => rfl
  · exact standsFor_escape (w := [110]) fun _ => rfl
  · exact breaksOff_escape (w := [118]) fun _ => rfl
  · exact standsFor_escape (w := [102]) fun _ => rfl
  · exact standsFor_escape (w := [114]) fun _ => rfl
  · exact standsFor_escape (w := [34]) fun _ => rfl
  · exact standsFor_escape (w := [92]) fun _ => rfl

theorem plain_of_shortEscape? {c : Nat} (h : Text.shortEscape? c = none) :
    Text.isPortableCode c = (0x20 ≤ c && c != 0x7F) ∧ c ≠ 34 ∧ c ≠ 92 := by
  unfold Text.shortEscape? at h
  split at h
  case h_10 _ h8 h9 h10 _ h12 h13 h34 h92 =>
    refine ⟨?_, h34, h92⟩
    have hlist : [8, 9, 10, 12, 13].contains c = false := by
      simp only [List.contains_cons, List.contains_nil, Bool.or_false, Bool.or_eq_false_iff,
        beq_eq_false_iff_ne]
      exact ⟨h8, h9, h10, h12, h13⟩
    rw [Text.isPortableCode, hlist, Bool.or_false]
  all_goals cases h

/-- A quoted character stands for itself if it is portable, and otherwise for nothing. -/
theorem piece_quotedCode {c : Nat} (hc : IsScalar c) :
    if Text.isPortableCode c then StandsFor (Text.quotedCode c) (Rune.encode c)
    else BreaksOff (Text.quotedCode c) := by
  cases he : Text.shortEscape? c with
  | some e =>
    simp only [Text.quotedCode, he]
    exact piece_shortEscape he
  | none =>
    obtain ⟨hportable, h34, h92⟩ := plain_of_shortEscape? he
    simp only [Text.quotedCode, he, hportable]
    by_cases hprintable : isPrintable c = true
    · obtain ⟨h32, h127⟩ := Text.bounds_of_isPrintable hprintable
      rw [if_pos (by simp [h32, h127]), if_pos hprintable]
      exact standsFor_encode hc ⟨h32, h34, h92⟩
    · rw [if_neg hprintable]
      by_cases hcontrol : c < 0x20 ∨ c = 0x7F
      · rw [if_neg (by simp; omega), if_pos (by simpa using hcontrol)]
        exact breaksOff_hex c
      · rw [if_pos (by simp; omega), if_neg (by simpa using hcontrol)]
        split_ifs with hsmall
        · exact (standsFor_hex hc).1 hsmall
        · exact (standsFor_hex hc).2

/-- **A quoted text is a string of TOML exactly if it is portable**, and then stands for the
text. -/
theorem stringBody?_inQuotes (t rest : Text) :
    stringBody? false (Text.inQuotes t ++ 34 :: rest) =
      if t.isPortable then some (some t, (Text.inQuotes t).length + 1) else none := by
  induction t using Text.runeInduction with
  | nil =>
    rw [Text.inQuotes_nil, Text.isPortable_nil, List.nil_append, stringBody?_cons]
    rfl
  | scalar c t hc ih =>
    have hpiece := piece_quotedCode hc
    rw [Text.inQuotes_encode hc, Text.isPortable_encode hc, List.append_assoc]
    cases hportable : Text.isPortableCode c with
    | false =>
      rw [hportable, if_neg (by decide)] at hpiece
      rw [hpiece]
      rfl
    | true =>
      rw [hportable, if_pos rfl] at hpiece
      rw [hpiece, ih, Bool.true_and]
      split
      · simp [appendPieces, Nat.add_assoc]
      · rfl
  | malformed b t hb _ =>
    rw [Text.inQuotes_malformed hb, Text.isPortable_malformed hb, List.append_assoc, breaksOff_hex]
    rfl

/-- A bell is quoted with an escape that is not one of TOML. -/
example : (basicString? (Text.quoted [7])).isNone = true ∧
    basicString? (Text.quoted [9]) = some (some [9], 4) := by decide +kernel

end Toml

end Scriptlet
