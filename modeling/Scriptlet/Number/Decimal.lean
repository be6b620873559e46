import Scriptlet.Number.Binary64
import Scriptlet.Text

/-!
# Decimal numbers as text

The number that decimal digits stand for, and the shortest digits that read back as it: of all
decimals that round to the number, those with the fewest digits, and of these the nearest.
-/

namespace Scriptlet

/-- The value of a run of decimal digits. -/
def digitsValue (t : Text) : Nat := t.foldl (fun n b => n * 10 + (b.toNat - 48)) 0

namespace Binary64

/-- The number that a run of digits stands for. -/
def ofDigits (t : Text) : Binary64 := ofDecimal false (digitsValue t) 0

/-! ### Shortest digits -/

/-- The reals that round to a number, with all of them multiplied by `unit`: from `low` to `high`,
ends included or not, around the number itself. -/
structure Rounding where
  /-- The common denominator. -/
  unit : Nat
  /-- The number. -/
  value : Nat
  /-- The lower end. -/
  low : Nat
  /-- The upper end. -/
  high : Nat
  /-- Do the ends themselves round to the number? -/
  closed : Bool

/-- The rounding interval of `m · 2 ^ e`. Below a power of two the next number is only half as far
away. -/
def rounding (m : Nat) (e : Int) : Rounding :=
  let down := if m = leadingBit && -1074 < e then 1 else 2
  let up := if 2 ≤ e then Nat.pow 2 (e - 2).toNat else 1
  { unit := if 2 ≤ e then 1 else Nat.pow 2 (2 - e).toNat
    value := 4 * m * up, low := (4 * m - down) * up, high := (4 * m + 2) * up
    closed := m % 2 = 0 }

namespace Rounding

/-- Does `n · 10 ^ i` round to the number? -/
def holds (r : Rounding) (n : Nat) (i : Int) : Bool :=
  let x := n * Nat.pow 10 i.toNat * r.unit
  let low := r.low * Nat.pow 10 (-i).toNat
  let high := r.high * Nat.pow 10 (-i).toNat
  if r.closed then low ≤ x && x ≤ high else low < x && x < high

/-- The largest `n` with `n · 10 ^ i` not above the number. -/
def below (r : Rounding) (i : Int) : Nat :=
  (r.value * Nat.pow 10 (-i).toNat) / (r.unit * Nat.pow 10 i.toNat)

/-- The least `k` with the number below `10 ^ k`. -/
def magnitude (r : Rounding) : Int :=
  if r.unit ≤ r.value then (Nat.toDigits 10 (r.value / r.unit)).length
  else
    match (List.range 400).find? fun j => r.unit ≤ r.value * Nat.pow 10 (j + 1) with
    | some j => -(j : Int)
    | none => -400

/-- A multiple of `10 ^ i` that rounds to the number: of the two neighbours of the number the
nearer, of two equally near ones the even one. -/
def nearest? (r : Rounding) (i : Int) : Option Nat :=
  let n := r.below i
  match r.holds n i, r.holds (n + 1) i with
  | false, false => none
  | true, false => some n
  | false, true => some (n + 1)
  | true, true =>
    let twice := 2 * r.value * Nat.pow 10 (-i).toNat
    let middle := (2 * n + 1) * Nat.pow 10 i.toNat * r.unit
    if twice < middle || (twice = middle && n % 2 = 0) then some n else some (n + 1)

end Rounding

/-- The digits of a number without the zeros at its end. -/
def trimmedDigits (n : Nat) : Text :=
  ((Text.ofNat n).reverse.dropWhile (· == 48)).reverse

/-- The shortest digits that read back as `m · 2 ^ e`, which is not zero, and where the point stands
in them: the number is `0.d₁d₂… · 10 ^ point`. -/
def shortestDigits (m : Nat) (e : Int) : Text × Int :=
  let r := rounding m e
  let k := r.magnitude
  let found := (List.range 17).findSome? fun (n : Nat) =>
    (r.nearest? (k - 1 - n)).map fun d => (d, k - 1 - (n : Int))
  match found with
  | some (d, i) => (trimmedDigits d, (Text.ofNat d).length + i)
  | none => (utf8 "0", 1)

/-! ### Layout -/

/-- How numbers are laid out. -/
structure Layout where
  /-- The least decimal exponent that is written without an exponent. -/
  least : Int
  /-- The least exponent above it that is written with an exponent. -/
  bound : Int
  /-- The least number of digits in an exponent. -/
  exponentDigits : Nat
  /-- The infinity. -/
  infinity : Text
  /-- The negative infinity. -/
  negativeInfinity : Text
  /-- Not a number. -/
  notNumber : Text

/-- Digits with the point where it belongs. -/
def positional (digits : Text) (point : Int) : Text :=
  if point ≤ 0 then utf8 "0." ++ List.replicate (-point).toNat 48 ++ digits
  else if digits.length ≤ point then digits ++ List.replicate (point.toNat - digits.length) 48
  else digits.take point.toNat ++ utf8 "." ++ digits.drop point.toNat

/-- Digits with one of them before the point, and a power of ten. -/
def scientific (exponentDigits : Nat) (digits : Text) (point : Int) : Text :=
  let e := point - 1
  let power := Text.ofNat e.natAbs
  digits.take 1 ++ (if digits.length ≤ 1 then [] else utf8 "." ++ digits.drop 1)
    ++ utf8 (if e < 0 then "e-" else "e+")
    ++ List.replicate (exponentDigits - power.length) 48 ++ power

/-- A number as text. -/
def toText (layout : Layout) : Binary64 → Text
  | nan => layout.notNumber
  | infinite negative => if negative then layout.negativeInfinity else layout.infinity
  | finite negative m e =>
    let sign := if negative then utf8 "-" else []
    if m = 0 then sign ++ utf8 "0"
    else
      let (digits, point) := shortestDigits m e
      let written := if layout.least ≤ point - 1 && point - 1 < layout.bound
        then positional digits point
        else scientific layout.exponentDigits digits point
      sign ++ written

end Binary64

end Scriptlet
