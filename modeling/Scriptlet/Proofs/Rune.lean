import Mathlib.Tactic.Common
import Scriptlet.Token.Rule

/-!
# Runes and their bytes

Reading a rune and writing one undo each other. A well-formed rune at the front of a text is written
there with exactly the bytes of its code point (`eq_encode_append`), and the bytes of a code point
are read as that code point, whatever follows them (`read_encode`). So layout at the front of a text
can be told by the code point or by the bytes.
-/

namespace Scriptlet.Rune

/-! ### Sequences of several bytes -/

/-- May the byte continue a sequence? -/
def Continues (b : UInt8) : Prop := 0x80 ≤ b.toNat ∧ b.toNat ≤ 0xBF

/-- The well-formed sequences of several bytes that start with `b`: the bytes after `b`, and the
code point. -/
inductive Sequence (b : UInt8) : Text → Nat → Prop where
  /-- A sequence of two bytes. -/
  | two {x : UInt8} {c : Nat} : 0xC2 ≤ b.toNat → b.toNat ≤ 0xDF → Continues x →
      c = b.toNat % 32 * 64 + x.toNat % 64 → Sequence b [x] c
  /-- A sequence of three bytes. -/
  | three {x y : UInt8} {c : Nat} : 0xE0 ≤ b.toNat → b.toNat ≤ 0xEF →
      (secondBounds b).1.toNat ≤ x.toNat → x.toNat ≤ (secondBounds b).2.toNat → Continues y →
      c = (b.toNat % 16 * 64 + x.toNat % 64) * 64 + y.toNat % 64 → Sequence b [x, y] c
  /-- A sequence of four bytes. -/
  | four {x y z : UInt8} {c : Nat} : 0xF0 ≤ b.toNat → b.toNat ≤ 0xF4 →
      (secondBounds b).1.toNat ≤ x.toNat → x.toNat ≤ (secondBounds b).2.toNat → Continues y →
      Continues z →
      c = ((b.toNat % 8 * 64 + x.toNat % 64) * 64 + y.toNat % 64) * 64 + z.toNat % 64 →
      Sequence b [x, y, z] c

theorem tail?_eq_some {lo hi : UInt8} {t : Text} {p : Nat × Text} (h : tail? lo hi t = some p) :
    ∃ b u, t = b :: u ∧ lo.toNat ≤ b.toNat ∧ b.toNat ≤ hi.toNat ∧ p = (b.toNat % 64, u) := by
  cases t with
  | nil => simp [tail?] at h
  | cons b u =>
    simp only [tail?, Bool.and_eq_true, decide_eq_true_eq, Option.ite_none_right_eq_some,
      Option.some.injEq] at h
    exact ⟨b, u, rfl, UInt8.le_iff_toNat_le.1 h.1.1, UInt8.le_iff_toNat_le.1 h.1.2, h.2.symm⟩

theorem tail?_cons {lo hi b : UInt8} {t : Text} (h : lo.toNat ≤ b.toNat) (h' : b.toNat ≤ hi.toNat) :
    tail? lo hi (b :: t) = some (b.toNat % 64, t) := by
  simp [tail?, UInt8.le_iff_toNat_le, h, h']

theorem tail?_of_continues {b : UInt8} (h : Continues b) (t : Text) :
    tail? 0x80 0xBF (b :: t) = some (b.toNat % 64, t) := tail?_cons h.1 h.2

theorem sequence?_eq_some {b : UInt8} {t : Text} {r : Rune} (h : sequence? b t = some r) :
    ∃ u v, t = u ++ v ∧ Sequence b u r.code ∧ r.width = u.length + 1 ∧ r.wellFormed = true := by
  unfold sequence? at h
  simp only [Option.pure_def, Option.bind_eq_bind] at h
  split at h
  · rename_i hb
    simp only [Bool.and_eq_true, decide_eq_true_eq, UInt8.le_iff_toNat_le] at hb
    obtain ⟨p, hp, hr⟩ := Option.bind_eq_some_iff.1 h
    obtain ⟨x, v, rfl, hx, hx', rfl⟩ := tail?_eq_some hp
    cases hr
    exact ⟨[x], v, rfl, .two hb.1 hb.2 ⟨hx, hx'⟩ rfl, rfl, rfl⟩
  · obtain ⟨p, hp, h⟩ := Option.bind_eq_some_iff.1 h
    obtain ⟨x, v, rfl, hx, hx', rfl⟩ := tail?_eq_some hp
    obtain ⟨p, hp, h⟩ := Option.bind_eq_some_iff.1 h
    obtain ⟨y, w, rfl, hy, hy', rfl⟩ := tail?_eq_some hp
    split at h
    · rename_i hb
      simp only [Bool.and_eq_true, decide_eq_true_eq, UInt8.le_iff_toNat_le] at hb
      cases h
      exact ⟨[x, y], w, rfl, .three hb.1 hb.2 hx hx' ⟨hy, hy'⟩ rfl, rfl, rfl⟩
    · split at h
      · rename_i hb
        simp only [Bool.and_eq_true, decide_eq_true_eq, UInt8.le_iff_toNat_le] at hb
        obtain ⟨p, hp, h⟩ := Option.bind_eq_some_iff.1 h
        obtain ⟨z, w', rfl, hz, hz', rfl⟩ := tail?_eq_some hp
        cases h
        exact ⟨[x, y, z], w', rfl, .four hb.1 hb.2 hx hx' ⟨hy, hy'⟩ ⟨hz, hz'⟩ rfl, rfl, rfl⟩
      · cases h

theorem sequence?_append {b : UInt8} {u : Text} {c : Nat} (h : Sequence b u c) (v : Text) :
    sequence? b (u ++ v) = some ⟨c, u.length + 1, true, Nat.succ_pos _⟩ := by
  unfold sequence?
  cases h with
  | two hb hb' hx hc =>
    subst hc
    simp [UInt8.le_iff_toNat_le, hb, hb', tail?_of_continues hx]
  | three hb hb' hx hx' hy hc =>
    subst hc
    have : ¬ b.toNat ≤ 0xDF := by omega
    simp [UInt8.le_iff_toNat_le, hb, hb', this, tail?_cons hx hx', tail?_of_continues hy]
  | four hb hb' hx hx' hy hz hc =>
    subst hc
    have h₂ : ¬ b.toNat ≤ 0xDF := by omega
    have h₃ : ¬ b.toNat ≤ 0xEF := by omega
    simp [UInt8.le_iff_toNat_le, hb, hb', h₂, h₃, tail?_cons hx hx', tail?_of_continues hy,
      tail?_of_continues hz]

/-! ### Code points -/

/-- A code point that UTF-8 can write: no surrogate, and not too large. -/
def IsScalar (c : Nat) : Prop := c < 0xD800 ∨ (0xE000 ≤ c ∧ c ≤ 0x10FFFF)

theorem isScalar_replacement : IsScalar replacement := by
  unfold IsScalar replacement
  omega

/-- What the second byte after `b` may be, in numbers: the overlong forms after `E0` and `F0`, the
surrogates after `ED` and the code points after `F4` that are too large are shut out. -/
theorem secondBounds_cases (b : UInt8) :
    let lo := (secondBounds b).1.toNat
    let hi := (secondBounds b).2.toNat
    0x80 ≤ lo ∧ hi ≤ 0xBF ∧ (b.toNat = 0xE0 → lo = 0xA0) ∧ (b.toNat = 0xED → hi = 0x9F) ∧
      (b.toNat = 0xF0 → lo = 0x90) ∧ (b.toNat = 0xF4 → hi = 0x8F) ∧
      (b.toNat ≠ 0xE0 → b.toNat ≠ 0xF0 → lo = 0x80) ∧
        (b.toNat ≠ 0xED → b.toNat ≠ 0xF4 → hi = 0xBF) := by
  have h (n : UInt8) : b = n ↔ b.toNat = n.toNat := UInt8.toNat_inj.symm
  simp only [secondBounds, h]
  split_ifs <;> simp_all

theorem encode_ne_nil (c : Nat) : encode c ≠ [] := by
  unfold encode
  dsimp only
  split_ifs <;> simp

theorem encode_one {c : Nat} (h : c < 0x80) : encode c = [c.toUInt8] := by
  have h₁ : ¬ 0xD800 ≤ c := by omega
  have h₂ : ¬ 0x10FFFF < c := by omega
  simp [encode, h₁, h₂, h]

theorem encode_two {c : Nat} (h : 0x80 ≤ c) (h' : c < 0x800) :
    encode c = [(0xC0 + c / 64).toUInt8, (0x80 + c % 64).toUInt8] := by
  have h₁ : ¬ 0xD800 ≤ c := by omega
  have h₂ : ¬ 0x10FFFF < c := by omega
  simp [encode, h₁, h₂, Nat.not_lt.2 h, h']

theorem encode_three {c : Nat} (hc : IsScalar c) (h : 0x800 ≤ c) (h' : c < 0x10000) :
    encode c = [(0xE0 + c / 4096).toUInt8, (0x80 + c / 64 % 64).toUInt8,
      (0x80 + c % 64).toUInt8] := by
  have h₁ : ¬ (0xD800 ≤ c ∧ c ≤ 0xDFFF) := by unfold IsScalar at hc; omega
  have h₂ : ¬ 0x10FFFF < c := by omega
  have h₃ : ¬ c < 0x80 := by omega
  simp [encode, h₁, h₂, h₃, Nat.not_lt.2 h, h']

theorem encode_four {c : Nat} (h : 0x10000 ≤ c) (h' : c ≤ 0x10FFFF) :
    encode c = [(0xF0 + c / 262144).toUInt8, (0x80 + c / 4096 % 64).toUInt8,
      (0x80 + c / 64 % 64).toUInt8, (0x80 + c % 64).toUInt8] := by
  have h₁ : ¬ c ≤ 0xDFFF := by omega
  have h₂ : ¬ c < 0x80 := by omega
  have h₃ : ¬ c < 0x800 := by omega
  simp [encode, h₁, Nat.not_lt.2 h', h₂, h₃, Nat.not_lt.2 h]

/-- A well-formed sequence is how its code point is written. -/
theorem Sequence.encode_eq {b : UInt8} {u : Text} {c : Nat} (h : Sequence b u c) :
    IsScalar c ∧ encode c = b :: u := by
  have bounds := secondBounds_cases b
  cases h with
  | two hb hb' hx hc =>
    obtain ⟨hx, hx'⟩ := hx
    refine ⟨by unfold IsScalar; omega, ?_⟩
    rw [encode_two (by omega) (by omega)]
    simp only [List.cons.injEq, ← UInt8.toNat_inj, Nat.toUInt8_eq, UInt8.toNat_ofNat', and_true]
    omega
  | three hb hb' hx hx' hy hc =>
    obtain ⟨hy, hy'⟩ := hy
    have hs : IsScalar c := by unfold IsScalar; omega
    refine ⟨hs, ?_⟩
    rw [encode_three hs (by omega) (by omega)]
    simp only [List.cons.injEq, ← UInt8.toNat_inj, Nat.toUInt8_eq, UInt8.toNat_ofNat', and_true]
    omega
  | four hb hb' hx hx' hy hz hc =>
    obtain ⟨hy, hy'⟩ := hy
    obtain ⟨hz, hz'⟩ := hz
    refine ⟨by unfold IsScalar; omega, ?_⟩
    rw [encode_four (by omega) (by omega)]
    simp only [List.cons.injEq, ← UInt8.toNat_inj, Nat.toUInt8_eq, UInt8.toNat_ofNat', and_true]
    omega

/-- A number below 256 as a byte. -/
theorem exists_byte {n : Nat} (h : n < 256) : ∃ b : UInt8, n.toUInt8 = b ∧ b.toNat = n :=
  ⟨_, rfl, UInt8.toNat_ofNat_of_lt' h⟩

/-- A code point above ASCII is written as a well-formed sequence. -/
theorem IsScalar.exists_sequence {c : Nat} (hc : IsScalar c) (h : 0x80 ≤ c) :
    ∃ b u, encode c = b :: u ∧ 0x80 ≤ b.toNat ∧ Sequence b u c := by
  have large : c ≤ 0x10FFFF := by unfold IsScalar at hc; omega
  obtain ⟨z, ez, hz⟩ := exists_byte (n := 0x80 + c % 64) (by omega)
  obtain ⟨y, ey, hy⟩ := exists_byte (n := 0x80 + c / 64 % 64) (by omega)
  by_cases h₂ : c < 0x800
  · obtain ⟨b, eb, hb⟩ := exists_byte (n := 0xC0 + c / 64) (by omega)
    rw [encode_two h h₂, eb, ez]
    exact ⟨b, [z], rfl, by omega, .two (by omega) (by omega) ⟨by omega, by omega⟩ (by omega)⟩
  by_cases h₃ : c < 0x10000
  · obtain ⟨b, eb, hb⟩ := exists_byte (n := 0xE0 + c / 4096) (by omega)
    have bounds := secondBounds_cases b
    rw [encode_three hc (by omega) h₃, eb, ey, ez]
    unfold IsScalar at hc
    exact ⟨b, [y, z], rfl, by omega, .three (by omega) (by omega) (by omega) (by omega)
      ⟨by omega, by omega⟩ (by omega)⟩
  · obtain ⟨b, eb, hb⟩ := exists_byte (n := 0xF0 + c / 262144) (by omega)
    obtain ⟨x, ex, hx⟩ := exists_byte (n := 0x80 + c / 4096 % 64) (by omega)
    have bounds := secondBounds_cases b
    rw [encode_four (by omega) large, eb, ex, ey, ez]
    exact ⟨b, [x, y, z], rfl, by omega, .four (by omega) (by omega) (by omega) (by omega)
      ⟨by omega, by omega⟩ ⟨by omega, by omega⟩ (by omega)⟩

/-! ### ASCII bytes -/

/-- The first of several bytes, and each byte after it, is no ASCII byte. -/
theorem Sequence.not_ascii {b : UInt8} {u : Text} {c : Nat} (h : Sequence b u c) :
    ∀ x ∈ b :: u, 0x80 ≤ x.toNat := by
  have bounds := secondBounds_cases b
  cases h with
  | two hb _ hx _ =>
    have := hx.1
    simp only [List.forall_mem_cons, List.not_mem_nil, false_imp_iff, implies_true, and_true]
    omega
  | three hb _ hx _ hy _ =>
    have := hy.1
    simp only [List.forall_mem_cons, List.not_mem_nil, false_imp_iff, implies_true, and_true]
    omega
  | four hb _ hx _ hy hz _ =>
    have := hy.1
    have := hz.1
    simp only [List.forall_mem_cons, List.not_mem_nil, false_imp_iff, implies_true, and_true]
    omega

/-- The bytes of a code point have an ASCII byte among them only if they are one. -/
theorem encode_eq_of_mem_ascii {c : Nat} (hc : IsScalar c) {b : UInt8} (hb : b.toNat < 0x80)
    (h : b ∈ encode c) : encode c = [b] := by
  by_cases ha : c < 0x80
  · rw [encode_one ha] at h ⊢
    rw [List.mem_singleton.1 h]
  · obtain ⟨x, u, e, -, hs⟩ := hc.exists_sequence (by omega)
    rw [e] at h
    have := hs.not_ascii b h
    omega

theorem encode_ascii {b : UInt8} (hb : b.toNat < 0x80) : encode b.toNat = [b] := by
  rw [encode_one hb]
  simp

/-- Only the code point of an ASCII byte is written as that byte. -/
theorem encode_eq_singleton_iff {c : Nat} (hc : IsScalar c) {b : UInt8} (hb : b.toNat < 0x80) :
    encode c = [b] ↔ c = b.toNat := by
  constructor
  · intro h
    by_cases hsmall : c < 0x80
    · rw [encode_one hsmall, List.cons.injEq] at h
      rw [← h.1, Nat.toUInt8_eq, UInt8.toNat_ofNat_of_lt' (Nat.lt_trans hsmall (by decide))]
    · obtain ⟨x, u, e, hx, -⟩ := hc.exists_sequence (by omega)
      rw [h, List.cons.injEq] at e
      rw [e.1] at hb
      omega
  · rintro rfl
    exact encode_ascii hb

/-! ### Reading and writing -/

theorem read_ascii {b : UInt8} (h : b.toNat < 0x80) (t : Text) :
    read b t = ⟨b.toNat, 1, true, by decide⟩ := by
  simp [read, UInt8.lt_iff_toNat_lt, h]

theorem Sequence.read_append {b : UInt8} {u : Text} {c : Nat} (h : Sequence b u c)
    (hb : 0x80 ≤ b.toNat) (v : Text) :
    read b (u ++ v) = ⟨c, u.length + 1, true, Nat.succ_pos _⟩ := by
  have : ¬ b < 0x80 := by simpa [UInt8.lt_iff_toNat_lt] using hb
  rw [read, if_neg this, sequence?_append h, Option.getD_some]

/-- **Reading undoes writing**: the bytes of a code point are read as that code point, whatever
follows. -/
theorem read_encode {c : Nat} (hc : IsScalar c) (t : Text) :
    ∃ b u, encode c = b :: u ∧ (read b (u ++ t)).code = c ∧
      (read b (u ++ t)).width = (encode c).length ∧ (read b (u ++ t)).wellFormed = true := by
  by_cases h : c < 0x80
  · obtain ⟨b, eb, hb⟩ := exists_byte (n := c) (by omega)
    have written : encode c = [b] := by rw [encode_one h, eb]
    exact ⟨b, [], written, by simp [read_ascii, hb, h, written]⟩
  · obtain ⟨b, u, written, hb, hs⟩ := hc.exists_sequence (by omega)
    exact ⟨b, u, written, by simp [hs.read_append hb, written]⟩

/-- **Writing undoes reading**: a well-formed rune stands in the text as its code point is
written. -/
theorem eq_encode_append {b : UInt8} {t : Text} (h : (read b t).wellFormed = true) :
    IsScalar (read b t).code ∧ (read b t).width = (encode (read b t).code).length ∧
      ∃ v, b :: t = encode (read b t).code ++ v := by
  by_cases hb : b.toNat < 0x80
  · rw [read_ascii hb]
    simp only [encode_ascii hb]
    exact ⟨by unfold IsScalar; omega, rfl, t, rfl⟩
  · have hb' : ¬ b < 0x80 := by simpa [UInt8.lt_iff_toNat_lt] using hb
    rw [read, if_neg hb'] at h ⊢
    cases hs : sequence? b t with
    | none => simp [hs, malformed] at h
    | some r =>
      obtain ⟨u, v, rfl, hu, hw, -⟩ := sequence?_eq_some hs
      obtain ⟨scalar, written⟩ := hu.encode_eq
      refine ⟨scalar, ?_, v, ?_⟩
      · rw [Option.getD_some, written, hw, List.length_cons]
      · rw [Option.getD_some, written, List.cons_append]

theorem read_eq_malformed {b : UInt8} {t : Text} (h : (read b t).wellFormed = false) :
    read b t = malformed := by
  unfold read at h ⊢
  split at h
  · cases h
  · rename_i hb
    rw [if_neg hb]
    cases hs : sequence? b t with
    | none => rfl
    | some r =>
      obtain ⟨-, -, -, -, -, hr⟩ := sequence?_eq_some hs
      rw [hs, Option.getD_some, hr] at h
      cases h

/-- What is not well-formed counts as the replacement character. -/
theorem code_of_not_wellFormed {b : UInt8} {t : Text} (h : (read b t).wellFormed = false) :
    (read b t).code = replacement := by
  rw [read_eq_malformed h]
  rfl

end Scriptlet.Rune

namespace Scriptlet.Rule

/-! ### Layout -/

theorem isScalar_of_isLayout {c : Nat} (h : isLayout c = true) :
    Rune.IsScalar c ∧ c ≠ Rune.replacement := by
  simp only [isLayout, isBlank, Bool.or_eq_true, Bool.and_eq_true, decide_eq_true_eq] at h
  unfold Rune.IsScalar Rune.replacement
  omega

/-- A layout rune at the front of a text is a layout code point, written out. -/
theorem isLayout_read_iff (b : UInt8) (t : Text) :
    isLayout (Rune.read b t).code = true ↔ ∃ c v, isLayout c = true ∧
      b :: t = Rune.encode c ++ v := by
  constructor
  · intro h
    have hw : (Rune.read b t).wellFormed = true := by
      by_contra hw
      exact (isScalar_of_isLayout h).2 (Rune.code_of_not_wellFormed (by simpa using hw))
    obtain ⟨-, -, v, hv⟩ := Rune.eq_encode_append hw
    exact ⟨_, v, h, hv⟩
  · rintro ⟨c, v, hc, hv⟩
    obtain ⟨b', u, written, code, -, -⟩ := Rune.read_encode (isScalar_of_isLayout hc).1 v
    rw [written, List.cons_append, List.cons.injEq] at hv
    rw [hv.1, hv.2, code]
    exact hc

theorem layoutLength_nil : layoutLength [] = 0 := by unfold layoutLength; rfl

theorem layoutLength_cons (b : UInt8) (t : Text) :
    layoutLength (b :: t) =
      if isLayout (Rune.read b t).code then
        (Rune.read b t).width + layoutLength ((b :: t).drop (Rune.read b t).width)
      else 0 := by
  conv => lhs; unfold layoutLength

/-- A run of layout, from its first rune on. -/
theorem layoutLength_encode_append {c : Nat} (hc : isLayout c = true) (t : Text) :
    layoutLength (Rune.encode c ++ t) = (Rune.encode c).length + layoutLength t := by
  obtain ⟨b, u, written, code, width, -⟩ := Rune.read_encode (isScalar_of_isLayout hc).1 t
  rw [written, List.cons_append, layoutLength_cons, code, if_pos hc, width, written,
    ← List.cons_append, List.drop_left]

theorem layoutLength_eq_zero_iff (t : Text) :
    layoutLength t = 0 ↔ ∀ c, isLayout c = true → ¬ Rune.encode c <+: t := by
  constructor
  · rintro h c hc ⟨u, rfl⟩
    have := List.length_pos_iff.2 (Rune.encode_ne_nil c)
    rw [layoutLength_encode_append hc] at h
    omega
  · intro h
    cases t with
    | nil => exact layoutLength_nil
    | cons b t =>
      rw [layoutLength_cons]
      split
      · rename_i hc
        obtain ⟨c, v, hc, hv⟩ := (isLayout_read_iff b t).1 hc
        exact absurd ⟨v, hv.symm⟩ (h c hc)
      · rfl

end Scriptlet.Rule
