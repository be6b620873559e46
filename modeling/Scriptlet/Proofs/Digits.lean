import Mathlib.Data.List.DropRight
import Scriptlet.Number.Decimal
import Scriptlet.Proofs.Lexeme
import Scriptlet.Toml.Reader

/-!
# Digits

What is written for a natural number are digits that stand for it (`digitsValue_ofNat`), and the
first of them is not zero unless the number is. The shortest digits of a floating-point number do
not begin with a zero either: of the decimals that round to a number other than zero, none is zero.

Hexadecimal digits are read as the number they were written for, if there are enough of them
(`Toml.hexNumber?_hex`).
-/

namespace Scriptlet

/-- Digits of which the first is not zero. -/
structure IsLeading (ds : Text) : Prop where
  digits : IsDigits ds
  head : ds.head? ≠ some 48

theorem IsLeading.of_prefix {ds es : Text} (h : IsLeading ds) (hp : es <+: ds) (hes : es ≠ []) :
    IsLeading es := by
  refine ⟨⟨hes, fun b hb => h.digits.2 b (hp.subset hb)⟩, ?_⟩
  obtain ⟨u, rfl⟩ := hp
  have := h.head
  rwa [List.head?_append_of_ne_nil es hes] at this

theorem IsDigits.append {ds es : Text} (h : IsDigits ds) (h' : ∀ b ∈ es, Text.isDigit b = true) :
    IsDigits (ds ++ es) :=
  ⟨List.append_ne_nil_of_left_ne_nil h.1 es, List.forall_mem_append.2 ⟨h.2, h'⟩⟩

theorem IsLeading.append {ds es : Text} (h : IsLeading ds) (h' : ∀ b ∈ es, Text.isDigit b = true) :
    IsLeading (ds ++ es) := by
  refine ⟨h.digits.append h', ?_⟩
  rw [List.head?_append_of_ne_nil ds h.digits.1]
  exact h.head

/-! ### Natural numbers -/

namespace Text

theorem isDigit_iff {b : UInt8} : isDigit b = true ↔ 48 ≤ b.toNat ∧ b.toNat ≤ 57 := by
  simp [isDigit, UInt8.le_iff_toNat_le]

theorem toNat_hexDigit {n : Nat} (h : n < 10) : (hexDigit n).toNat = 48 + n := by
  have all : ∀ m : Fin 10, (hexDigit m.val).toNat = 48 + m.val := by decide
  exact all ⟨n, h⟩

/-- The last digit comes off the end. -/
theorem ofNat_eq (n : Nat) :
    ofNat n = (if n < 10 then [] else ofNat (n / 10)) ++ [hexDigit (n % 10)] := by
  have digit : ∀ m : Fin 10, m.val.digitChar.toNat.toUInt8 = hexDigit m.val := by decide
  have last : (n % 10).digitChar.toNat.toUInt8 = hexDigit (n % 10) :=
    digit ⟨n % 10, Nat.mod_lt n (by decide)⟩
  rw [ofNat, Nat.toDigits_eq_if (by decide)]
  split
  · rename_i h
    rw [← last, Nat.mod_eq_of_lt h]
    rfl
  · rw [List.map_append, List.map_singleton, last]
    rfl

theorem isDigits_ofNat (n : Nat) : IsDigits (ofNat n) := by
  induction n using Nat.strongRecOn with
  | _ n ih =>
    have hlast := toNat_hexDigit (Nat.mod_lt n (by decide : 0 < 10))
    have hdigit : isDigit (hexDigit (n % 10)) = true := isDigit_iff.2 (by omega)
    rw [ofNat_eq]
    refine ⟨by simp, List.forall_mem_append.2 ⟨?_, by simpa using hdigit⟩⟩
    split
    · simp
    · exact (ih (n / 10) (by omega)).2

theorem isLeading_ofNat {n : Nat} (hn : n ≠ 0) : IsLeading (ofNat n) := by
  induction n using Nat.strongRecOn with
  | _ n ih =>
    by_cases h : n < 10
    · refine ⟨isDigits_ofNat n, ?_⟩
      have hlast := toNat_hexDigit h
      rw [ofNat_eq, if_pos h, Nat.mod_eq_of_lt h]
      intro h48
      rw [List.nil_append, List.head?_cons, Option.some.injEq] at h48
      rw [h48, show (48 : UInt8).toNat = 48 from rfl] at hlast
      omega
    · have hlast := (isDigits_ofNat n).2
      rw [ofNat_eq, if_neg h] at hlast ⊢
      exact (ih (n / 10) (by omega) (by omega)).append
        fun b hb => hlast b (List.mem_append_right _ hb)

end Text

theorem digitsValue_concat (ds : Text) (b : UInt8) :
    digitsValue (ds ++ [b]) = digitsValue ds * 10 + (b.toNat - 48) := by
  simp [digitsValue, List.foldl_append]

/-- **The digits of a number stand for it.** -/
theorem digitsValue_ofNat (n : Nat) : digitsValue (Text.ofNat n) = n := by
  induction n using Nat.strongRecOn with
  | _ n ih =>
    have hlast := Text.toNat_hexDigit (Nat.mod_lt n (by decide : 0 < 10))
    rw [Text.ofNat_eq, digitsValue_concat, hlast]
    split
    · simp only [digitsValue, List.foldl_nil]
      omega
    · rw [ih (n / 10) (by omega)]
      omega

/-! ### Hexadecimal digits -/

theorem Text.length_hex (w n : Nat) : (Text.hex w n).length = w := by
  induction w generalizing n with
  | zero => rfl
  | succ w ih => rw [Text.hex, List.length_append, ih, List.length_singleton]

theorem Text.exists_hexDigit_of_mem {b : UInt8} {w n : Nat} (h : b ∈ Text.hex w n) :
    ∃ d : Fin 16, b = Text.hexDigit d.val := by
  induction w generalizing n with
  | zero => cases h
  | succ w ih =>
    rw [Text.hex, List.mem_append, List.mem_singleton] at h
    rcases h with h | h
    · exact ih h
    · exact ⟨⟨n % 16, Nat.mod_lt n (by decide)⟩, h⟩

namespace Toml

theorem hexDigit?_hexDigit {n : Nat} (h : n < 16) : hexDigit? (Text.hexDigit n) = some n := by
  have all : ∀ m : Fin 16, hexDigit? (Text.hexDigit m.val) = some m.val := by decide
  exact all ⟨n, h⟩

/-- One more digit comes on at the end. -/
theorem hexNumber?_concat {u t : Text} {b : UInt8} {m d : Nat}
    (hu : hexNumber? u.length (u ++ b :: t) = some m) (hb : hexDigit? b = some d) :
    hexNumber? (u.length + 1) (u ++ b :: t) = some (m * 16 + d) := by
  induction u generalizing m with
  | nil =>
    obtain rfl := Option.some.inj hu
    simp [hexNumber?, hb]
  | cons x u ih =>
    simp only [List.length_cons, List.cons_append, hexNumber?, Option.bind_eq_bind,
      Option.bind_eq_some_iff, Option.pure_def, Option.some.injEq] at hu ⊢
    obtain ⟨e, he, r, hr, rfl⟩ := hu
    refine ⟨e, he, _, ih hr, ?_⟩
    rw [Nat.pow_eq, Nat.pow_eq, Nat.pow_succ, Nat.add_mul, Nat.mul_assoc, Nat.add_assoc]

/-- **Hexadecimal digits are read as the number they were written for**, if there are enough of
them. -/
theorem hexNumber?_hex {w n : Nat} (h : n < Nat.pow 16 w) (t : Text) :
    hexNumber? w (Text.hex w n ++ t) = some n := by
  induction w generalizing n t with
  | zero =>
    have h : n < 1 := h
    rw [hexNumber?, Option.some.injEq]
    omega
  | succ w ih =>
    have hn : n / 16 < Nat.pow 16 w :=
      Nat.div_lt_of_lt_mul (by rwa [Nat.pow_eq, Nat.pow_succ, Nat.mul_comm] at h)
    have hlast := hexNumber?_concat (u := Text.hex w (n / 16)) (t := t) (m := n / 16)
      (by rw [Text.length_hex]; exact ih hn _) (hexDigit?_hexDigit (Nat.mod_lt n (by decide)))
    rw [Text.length_hex] at hlast
    rw [Text.hex, List.append_assoc, List.singleton_append, hlast, Nat.div_add_mod']

end Toml

/-! ### Floating-point numbers -/

namespace Binary64

theorem isLeading_trimmedDigits {n : Nat} (hn : n ≠ 0) : IsLeading (trimmedDigits n) := by
  have h := Text.isLeading_ofNat hn
  refine h.of_prefix (List.rdropWhile_prefix (· == 48) (Text.ofNat n)) ?_
  intro hnil
  have hall := List.rdropWhile_eq_nil_iff.1 hnil
  obtain ⟨b, t, e⟩ := List.exists_cons_of_ne_nil h.digits.1
  have hb := h.head
  rw [e] at hall hb
  have := hall b List.mem_cons_self
  simp_all

namespace Rounding

/-- Zero rounds to no other number. -/
theorem holds_zero {r : Rounding} (h : 0 < r.low) (i : Int) : r.holds 0 i = false := by
  have hpow : 0 < Nat.pow 10 (-i).toNat := Nat.pow_pos (by decide)
  have hlow := Nat.mul_pos h hpow
  simp only [holds, Nat.zero_mul]
  split
  · simp only [Bool.and_eq_false_iff, decide_eq_false_iff_not]
    omega
  · simp only [Bool.and_eq_false_iff, decide_eq_false_iff_not]
    omega

theorem holds_of_nearest? {r : Rounding} {i : Int} {d : Nat} (h : r.nearest? i = some d) :
    r.holds d i = true := by
  simp only [nearest?] at h
  split at h
  · cases h
  · cases h
    assumption
  · cases h
    assumption
  · split at h
    · cases h
      assumption
    · cases h
      assumption

end Rounding

theorem low_rounding_pos {m : Nat} (hm : m ≠ 0) (e : Int) : 0 < (rounding m e).low := by
  simp only [rounding]
  refine Nat.mul_pos ?_ ?_
  · split <;> omega
  · split
    · exact Nat.pow_pos (by decide)
    · decide

/-- The shortest digits of a number other than zero do not begin with a zero; where none were found,
there is a zero in front of the point. -/
theorem shortestDigits_cases {m : Nat} (hm : m ≠ 0) (e : Int) :
    IsLeading (shortestDigits m e).1 ∨ shortestDigits m e = ([48], 1) := by
  simp only [shortestDigits]
  split
  · rename_i d i hfound
    left
    obtain ⟨k, -, hk⟩ := List.exists_of_findSome?_eq_some hfound
    obtain ⟨d', hd, he⟩ := Option.map_eq_some_iff.1 hk
    cases he
    refine isLeading_trimmedDigits ?_
    rintro rfl
    have hholds := Rounding.holds_of_nearest? hd
    rw [Rounding.holds_zero (low_rounding_pos hm e)] at hholds
    cases hholds
  · right
    rfl

end Binary64

end Scriptlet
