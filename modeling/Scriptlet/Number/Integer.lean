import Scriptlet.Text

/-!
# Integers with base marks

An integer may have a sign, and a mark for its base: `0x` for sixteen, `0o` or a bare `0` for eight,
`0b` for two. An underscore may stand between two digits, and after a mark of two letters.
-/

namespace Scriptlet.Integer

/-- The value of a digit, letters being digits from ten on. -/
def digit? (b : UInt8) : Option Nat :=
  if 48 ≤ b && b ≤ 57 then some (b.toNat - 48)
  else if 97 ≤ b && b ≤ 122 then some (b.toNat - 87)
  else if 65 ≤ b && b ≤ 90 then some (b.toNat - 55)
  else none

/-- The value of digits in a base. An underscore has to follow a digit, or something that counts as
one (`afterDigit`), and a digit has to follow it. -/
def digits? (base : Nat) (value : Nat) (afterDigit : Bool) : Text → Option Nat
  | [] => if afterDigit then some value else none
  | 95 :: t => if afterDigit then digits? base value false t else none
  | b :: t =>
    match digit? b with
    | some d => if d < base then digits? base (value * base + d) true t else none
    | none => none

/-- The value of an integer without a sign. -/
def unsigned? : Text → Option Nat
  | 48 :: m :: b :: t =>
    if m = 120 || m = 88 then digits? 16 0 true (b :: t)
    else if m = 111 || m = 79 then digits? 8 0 true (b :: t)
    else if m = 98 || m = 66 then digits? 2 0 true (b :: t)
    else digits? 8 0 true (m :: b :: t)
  | 48 :: t => digits? 8 0 true t
  | t => digits? 10 0 false t

/-- The value of an integer. -/
def ofText? : Text → Option Int
  | 45 :: t => (unsigned? t).map fun n => -(n : Int)
  | 43 :: t => (unsigned? t).map Int.ofNat
  | t => (unsigned? t).map Int.ofNat

/-- Does the number fit in 64 bits, one of them for the sign? The bound is two to the 63rd power. -/
def fits (i : Int) : Bool := -9223372036854775808 ≤ i && i < 9223372036854775808

end Scriptlet.Integer
