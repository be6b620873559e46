import Scriptlet.Text

/-!
# Runes

The characters of a text. A rune is read from the front of a text by the rules of UTF-8 (no
overlong forms, no surrogates, nothing above `U+10FFFF`). A byte with which no well-formed sequence
starts is a rune of its own: it takes one byte and counts as `U+FFFD`.
-/

namespace Scriptlet

/-- A character as it stands in a text. -/
structure Rune where
  /-- The code point. -/
  code : Nat
  /-- How many bytes it takes. -/
  width : Nat
  /-- Is it a well-formed UTF-8 sequence? -/
  wellFormed : Bool
  /-- A rune takes at least one byte. -/
  pos : 0 < width

namespace Rune

/-- The replacement character `U+FFFD`. -/
def replacement : Nat := 0xFFFD

/-- A byte that starts no well-formed sequence. -/
def malformed : Rune := ⟨replacement, 1, false, by decide⟩

/-- The six bits that a later byte of a sequence adds, if it lies between `lo` and `hi`. -/
def tail? (lo hi : UInt8) : Text → Option (Nat × Text)
  | [] => none
  | b :: t => if lo ≤ b && b ≤ hi then some (b.toNat % 64, t) else none

/-- The bounds on the second byte after the first byte `b` of a sequence of three or four bytes:
they shut out overlong forms, surrogates and code points that are too large. -/
def secondBounds (b : UInt8) : UInt8 × UInt8 :=
  if b = 0xE0 then (0xA0, 0xBF)
  else if b = 0xED then (0x80, 0x9F)
  else if b = 0xF0 then (0x90, 0xBF)
  else if b = 0xF4 then (0x80, 0x8F)
  else (0x80, 0xBF)

/-- The well-formed sequence of several bytes that starts with `b`, if there is one. -/
def sequence? (b : UInt8) (t : Text) : Option Rune := do
  if 0xC2 ≤ b && b ≤ 0xDF then
    let (x, _) ← tail? 0x80 0xBF t
    return ⟨b.toNat % 32 * 64 + x, 2, true, by decide⟩
  let (x, t) ← tail? (secondBounds b).1 (secondBounds b).2 t
  let (y, t) ← tail? 0x80 0xBF t
  if 0xE0 ≤ b && b ≤ 0xEF then
    return ⟨(b.toNat % 16 * 64 + x) * 64 + y, 3, true, by decide⟩
  if 0xF0 ≤ b && b ≤ 0xF4 then
    let (z, _) ← tail? 0x80 0xBF t
    return ⟨((b.toNat % 8 * 64 + x) * 64 + y) * 64 + z, 4, true, by decide⟩
  none

/-- The rune at the front of the text `b :: t`. -/
def read (b : UInt8) (t : Text) : Rune :=
  if b < 0x80 then ⟨b.toNat, 1, true, by decide⟩ else (sequence? b t).getD malformed

/-- The UTF-8 bytes of a code point; a number that is no code point is written as `U+FFFD`. -/
def encode (code : Nat) : Text :=
  let n := if (0xD800 ≤ code && code ≤ 0xDFFF) || 0x10FFFF < code then replacement else code
  if n < 0x80 then [n.toUInt8]
  else if n < 0x800 then [(0xC0 + n / 64).toUInt8, (0x80 + n % 64).toUInt8]
  else if n < 0x10000 then
    [(0xE0 + n / 4096).toUInt8, (0x80 + n / 64 % 64).toUInt8, (0x80 + n % 64).toUInt8]
  else
    [(0xF0 + n / 262144).toUInt8, (0x80 + n / 4096 % 64).toUInt8, (0x80 + n / 64 % 64).toUInt8,
      (0x80 + n % 64).toUInt8]

end Rune

namespace Text

/-- The runes of a text, each with the bytes it stands for. -/
def runes : Text → List (Rune × Text)
  | [] => []
  | b :: t =>
    let r := Rune.read b t
    (r, (b :: t).take r.width) :: runes ((b :: t).drop r.width)
termination_by t => t.length
decreasing_by
  have := (Rune.read b t).pos
  simp only [List.length_drop, List.length_cons]
  omega

/-- The number of runes of a text, added to `n`. -/
def addRunes (n : Nat) : Text → Nat
  | [] => n
  | b :: t =>
    if b < 0x80 then addRunes (n + 1) t
    else addRunes (n + 1) (t.drop ((Rune.read b t).width - 1))
termination_by t => t.length
decreasing_by all_goals simp only [List.length_drop, List.length_cons]; omega

/-- How many runes a text has. -/
def runeCount (t : Text) : Nat := addRunes 0 t

theorem addRunes_eq (n : Nat) (t : Text) : addRunes n t = n + (runes t).length := by
  fun_induction addRunes n t with
  | case1 n => simp [runes]
  | case2 n b t h ih =>
    have width : (Rune.read b t).width = 1 := by simp [Rune.read, h]
    rw [ih, runes]
    simp only [width, List.drop_succ_cons, List.drop_zero, List.length_cons]
    omega
  | case3 n b t h ih =>
    obtain ⟨k, hk⟩ : ∃ k, (Rune.read b t).width = k + 1 :=
      Nat.exists_eq_add_one.2 (Rune.read b t).pos
    rw [ih, runes]
    simp only [hk, List.drop_succ_cons, List.length_cons, Nat.add_sub_cancel]
    omega

theorem runeCount_eq (t : Text) : runeCount t = (runes t).length := by
  rw [runeCount, addRunes_eq, Nat.zero_add]

/-- Is the text well-formed UTF-8? -/
def isWellFormed (t : Text) : Bool := (runes t).all fun r => r.1.wellFormed

/-- The text with every malformed byte replaced by `U+FFFD`. -/
def repaired (t : Text) : Text :=
  (runes t).flatMap fun r => if r.1.wellFormed then r.2 else Rune.encode Rune.replacement

end Text

end Scriptlet
