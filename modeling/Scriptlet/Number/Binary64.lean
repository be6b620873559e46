/-!
# Double-precision numbers

A number literal stands for the double-precision number nearest to it. Numbers are kept as a sign,
a mantissa and a power of two, and all rounding is done on exact ratios of natural numbers.
-/

namespace Scriptlet

/-- A double-precision number. -/
inductive Binary64 where
  /-- Not a number. -/
  | nan
  /-- An infinity. -/
  | infinite (negative : Bool)
  /-- The number `mantissa · 2 ^ exponent`, or its negative. The mantissa is below `2 ^ 53`, and the
  exponent is the least one that allows this, but not below `-1074`. -/
  | finite (negative : Bool) (mantissa : Nat) (exponent : Int)
  deriving DecidableEq

/-- The quotient rounded to the nearest natural number, a half to the even neighbour. -/
def roundDiv (n d : Nat) : Nat :=
  let q := n / d
  let r := n % d
  if 2 * r < d || (2 * r = d && q % 2 = 0) then q else q + 1

namespace Binary64

/-- What every mantissa is below: two to the 53rd power. -/
def mantissaLimit : Nat := Nat.pow 2 53

/-- The leading bit of a full mantissa: two to the 52nd power. -/
def leadingBit : Nat := Nat.pow 2 52

/-- The ratio `n / d` divided by `2 ^ e`, again as a ratio. -/
def scale (n d : Nat) (e : Int) : Nat × Nat :=
  if 0 ≤ e then (n, d * Nat.pow 2 e.toNat) else (n * Nat.pow 2 (-e).toNat, d)

/-- The number with the given mantissa and exponent; infinite if the exponent is too large. -/
def ofParts (negative : Bool) (mantissa : Nat) (exponent : Int) : Binary64 :=
  if 971 < exponent then .infinite negative else .finite negative mantissa exponent

/-- The zero. -/
def zero (negative : Bool) : Binary64 := .finite negative 0 (-1074)

/-- The number nearest to `n / d`, of two equally near ones the one with the even mantissa. -/
def ofRatio (negative : Bool) (n d : Nat) : Binary64 :=
  if n = 0 then zero negative
  else
    -- the quotient lies strictly between `2 ^ (k - 1)` and `2 ^ (k + 1)`
    let k : Int := (n.log2 : Int) - d.log2
    let e := max (k - 53) (-1074)
    let e := if mantissaLimit ≤ (scale n d e).1 / (scale n d e).2 then e + 1 else e
    let m := roundDiv (scale n d e).1 (scale n d e).2
    if m = mantissaLimit then ofParts negative leadingBit (e + 1) else ofParts negative m e

/-- The number nearest to `n · 10 ^ e`. Far outside the range of finite numbers the power of ten is
not computed. -/
def ofDecimal (negative : Bool) (n : Nat) (e : Int) : Binary64 :=
  let digits : Int := (Nat.toDigits 10 n).length
  if n = 0 || digits + e < -400 then zero negative
  else if 400 < digits + e then .infinite negative
  else if 0 ≤ e then ofRatio negative (n * Nat.pow 10 e.toNat) 1
  else ofRatio negative n (Nat.pow 10 (-e).toNat)

/-- The number nearest to `n · 2 ^ e`. Far outside the range of finite numbers the power of two is
not computed. -/
def ofBinary (negative : Bool) (n : Nat) (e : Int) : Binary64 :=
  let bits : Int := n.log2
  if n = 0 || bits + e < -1200 then zero negative
  else if 1200 < bits + e then .infinite negative
  else if 0 ≤ e then ofRatio negative (n * Nat.pow 2 e.toNat) 1
  else ofRatio negative n (Nat.pow 2 (-e).toNat)

end Binary64

end Scriptlet
