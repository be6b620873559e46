import Scriptlet.Number.Decimal
import Scriptlet.Number.Integer

/-!
# Numbers as text

A number may be written in decimal digits, with a point and a power of ten, or after `0x` in
hexadecimal digits, with a point and always with a power of two. Infinities and not-a-number have
names. An underscore may stand between two digits, and after `0x`.
-/

namespace Scriptlet.Binary64

/-- The lower-case form of an ASCII letter. -/
def lowerCase (b : UInt8) : UInt8 := if 65 ≤ b && b ≤ 90 then b + 32 else b

/-- Is the byte a digit of the base? -/
def isDigitOf (base : Nat) (b : UInt8) : Bool :=
  match Integer.digit? b with
  | some d => d < base
  | none => false

/-- The value of digits of a base. -/
def valueOf (base : Nat) (t : Text) : Nat :=
  t.foldl (fun n b => n * base + (Integer.digit? b).getD 0) 0

/-- The value of the digits of an exponent; once it is 10000 or more, further digits change
nothing. -/
def exponentValue (digits : Text) : Nat :=
  digits.foldl (fun n b => if n < 10000 then n * 10 + (b.toNat - 48) else n) 0

/-- An exponent: its mark, an optional sign and decimal digits. -/
def exponent? (mark : UInt8) : Text → Option Int
  | [] => none
  | b :: t =>
    let (negative, digits) := match t with
      | 45 :: r => (true, r)
      | 43 :: r => (false, r)
      | r => (false, r)
    if lowerCase b = mark && !digits.isEmpty && digits.all Text.isDigit then
      let n : Int := exponentValue digits
      some (if negative then -n else n)
    else none

/-- Digits of a base with an optional point, at least one digit: those before the point, those after
it, and what follows. -/
def mantissa? (base : Nat) (t : Text) : Option (Text × Text × Text) :=
  let whole := t.takeWhile (isDigitOf base)
  let t := t.drop whole.length
  let (fraction, t) := match t with
    | 46 :: r =>
      let fraction := r.takeWhile (isDigitOf base)
      (fraction, r.drop fraction.length)
    | r => ([], r)
  if whole.isEmpty && fraction.isEmpty then none
  else some (whole, fraction, t)

/-- How many digits before the point count as places of a decimal, unless fewer settle it. -/
def placeLimit : Nat := 800

/-- How many digits are tried first on a decimal that is longer than `placeLimit`. -/
def leadingDigits : Nat := 19

/-- The number for `n · 10 ^ e`, where `n` is written with `whole + places` digits and `whole` of
them, more than `placeLimit`, stand before the point. If its first `leadingDigits` digits leave no
doubt, because all decimals that start with them round alike or because only zeros follow, it is the
nearest number. Otherwise the digits before the point beyond `placeLimit` do not move the point. -/
def ofLongDecimal (negative : Bool) (whole places n : Nat) (e : Int) : Binary64 :=
  let later := whole + places - leadingDigits
  let lead := n / Nat.pow 10 later
  let low := ofDecimal negative lead (e + (later : Int))
  let high := ofDecimal negative (lead + 1) (e + (later : Int))
  if n % Nat.pow 10 later = 0 || low = high then low
  else ofDecimal negative n (e - ((whole - placeLimit : Nat) : Int))

/-- The number for decimal digits before and after a point, times a power of ten. Zeros in front are
not counted. -/
def ofDecimalDigits (negative : Bool) (whole fraction : Text) (e : Int) : Binary64 :=
  let count := (whole.dropWhile (· = 48)).length
  let n := valueOf 10 (whole ++ fraction)
  let e := e - (fraction.length : Int)
  if count ≤ placeLimit then ofDecimal negative n e
  else ofLongDecimal negative count fraction.length n e

/-- A decimal without its sign; the exponent may be left out. -/
def decimal? (negative : Bool) (t : Text) : Option Binary64 := do
  let (whole, fraction, t) ← mantissa? 10 t
  let e ← if t.isEmpty then some 0 else exponent? 101 t
  return ofDecimalDigits negative whole fraction e

/-- A hexadecimal number without its sign and `0x`. Each digit after the point is worth four powers
of two. -/
def hexadecimal? (negative : Bool) (t : Text) : Option Binary64 := do
  let (whole, fraction, t) ← mantissa? 16 t
  let e ← exponent? 112 t
  return ofBinary negative (valueOf 16 (whole ++ fraction)) (e - 4 * (fraction.length : Int))

/-- What follows `0x` at the front of a text, if anything does. -/
def afterHexMark? : Text → Option Text
  | 48 :: m :: b :: t => if lowerCase m = 120 then some (b :: t) else none
  | _ => none

/-- Does each underscore stand between two digits? `afterDigit` says whether the byte before counts
as a digit, and `afterUnderscore` whether it was an underscore. -/
def separated (base : Nat) (afterDigit afterUnderscore : Bool) : Text → Bool
  | [] => !afterUnderscore
  | b :: t =>
    if isDigitOf base b then separated base true false t
    else if b = 95 then afterDigit && separated base false true t
    else !afterUnderscore && separated base false false t

/-- An unsigned number: hexadecimal after `0x`, else decimal. -/
def unsigned? (negative : Bool) (t : Text) : Option Binary64 :=
  match afterHexMark? t with
  | some u =>
    if separated 16 true false u then hexadecimal? negative (u.filter (· != 95)) else none
  | none =>
    if separated 10 false false t then decimal? negative (t.filter (· != 95)) else none

/-- The number that a text stands for. -/
def ofText? (t : Text) : Option Binary64 :=
  let (negative, u) := match t with
    | 45 :: r => (true, r)
    | 43 :: r => (false, r)
    | r => (false, r)
  let w := u.map lowerCase
  if w = utf8 "inf" || w = utf8 "infinity" then some (.infinite negative)
  else if t.map lowerCase = utf8 "nan" then some .nan
  else unsigned? negative u

end Scriptlet.Binary64
