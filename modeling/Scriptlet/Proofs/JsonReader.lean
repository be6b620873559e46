import Scriptlet.Json
import Scriptlet.Toml.Reader

/-!
# Reading JSON

A strict reader of JSON: one value, with blanks around it and nothing else. Lists and objects have a
comma between neighbours and none at the end, numbers have no zeros in front, and a string is
well-formed UTF-8 without bare controls, in which a backslash begins one of the known escapes. A
pair of escaped surrogates is one character; a surrogate alone stands for `U+FFFD`.

The reader stands beside the writer and shares only decimal digits, hexadecimal digits and runes
with it.
-/

namespace Scriptlet

/-- What a JSON text stands for. -/
inductive JsonValue where
  /-- The null. -/
  | null
  /-- A truth value. -/
  | boolean (b : Bool)
  /-- The number `mantissa · 10 ^ exponent`. -/
  | number (mantissa exponent : Int)
  /-- A string. -/
  | string (t : Text)
  /-- A list of values. -/
  | array (elements : List JsonValue)
  /-- Named values, in the order in which they stand. -/
  | object (fields : List (Text × JsonValue))

namespace JsonValue

mutual

/-- How many lists and objects stand inside one another in a value. -/
def nesting : JsonValue → Nat
  | array elements => nestingAll elements + 1
  | object fields => nestingFields fields + 1
  | _ => 0

/-- The deepest nesting among values. -/
def nestingAll : List JsonValue → Nat
  | [] => 0
  | e :: es => max e.nesting (nestingAll es)

/-- The deepest nesting among the values of fields. -/
def nestingFields : List (Text × JsonValue) → Nat
  | [] => 0
  | (_, v) :: fs => max v.nesting (nestingFields fs)

end

open Toml (Reader hexNumber? length_dropWhile_le)

/-- The value `a`, read up to `rest`, if something was read. -/
def upTo? {α : Type} (a : α) (rest t : Text) : Option (Parsed α t) :=
  if h : rest.length < t.length then some ⟨a, rest, h⟩ else none

/-! ### Blanks and words -/

/-- Is the byte a space, a tab or the end of a line? -/
def isBlank (b : UInt8) : Bool := b = 32 || b = 9 || b = 10 || b = 13

/-- Without the blanks at the front. -/
def skipBlanks (t : Text) : Text := t.dropWhile isBlank

theorem length_skipBlanks (t : Text) : (skipBlanks t).length ≤ t.length := length_dropWhile_le _ t

/-- A word that stands for a value. -/
def word (w : Text) (v : JsonValue) : Reader JsonValue := fun t =>
  if Text.startsWith t w then upTo? v (t.drop w.length) t else none

/-! ### Strings -/

/-- The character that a byte stands for after a backslash. -/
def escaped? : UInt8 → Option UInt8
  | 34 => some 34
  | 47 => some 47
  | 92 => some 92
  | 98 => some 8
  | 102 => some 12
  | 110 => some 10
  | 114 => some 13
  | 116 => some 9
  | _ => none

/-- The second half of a pair of surrogates, whose first half is `high`. -/
def low? (high : Nat) : Text → Option Nat
  | 92 :: 117 :: t =>
    if 0xD800 ≤ high && high < 0xDC00 then
      (hexNumber? 4 t).filter fun low => 0xDC00 ≤ low && low < 0xE000
    else none
  | _ => none

/-- The character of four hexadecimal digits, or of a pair of surrogates. -/
def unicode : Reader Text := fun t =>
  match hexNumber? 4 t with
  | none => none
  | some code =>
    match low? code (t.drop 4) with
    | none => upTo? (Rune.encode code) (t.drop 4) t
    | some low => upTo? (Rune.encode (0x10000 + (code - 0xD800) * 0x400 + (low - 0xDC00)))
        (t.drop 10) t

/-- What stands after a backslash. -/
def escape : Reader Text := fun t =>
  match t with
  | [] => none
  | b :: u =>
    if b = 117 then (unicode u).map fun p => p.weaken (Nat.le_succ _)
    else (escaped? b).map fun c => ⟨[c], u, Nat.lt_succ_self _⟩

/-- A string after its opening quote. -/
def body : Reader Text := fun t =>
  match t with
  | [] => none
  | b :: u =>
    if b = 34 then some ⟨[], u, Nat.lt_succ_self _⟩
    else if b = 92 then
      match escape u with
      | none => none
      | some ⟨c, rest, h⟩ =>
        (body rest).map fun p => (p.map (c ++ ·)).weaken (Nat.le_succ_of_le (Nat.le_of_lt h))
    else if b < 32 then none
    else
      let r := Rune.read b u
      if r.wellFormed then
        (body ((b :: u).drop r.width)).map fun p =>
          (p.map ((b :: u).take r.width ++ ·)).weaken (by simp only [List.length_drop]; omega)
      else none
termination_by t => t.length
decreasing_by
  · exact Nat.lt_succ_of_lt h
  · have := (Rune.read b u).pos
    simp only [List.length_drop, List.length_cons]
    omega

/-- A string. -/
def text : Reader Text := fun t =>
  match t with
  | [] => none
  | b :: u => if b = 34 then (body u).map fun p => p.weaken (Nat.le_succ _) else none

/-! ### Numbers -/

/-- The digits at the front, of which there is at least one, and what is behind them. -/
def digits? (t : Text) : Option (Text × Text) :=
  let ds := t.takeWhile Text.isDigit
  if ds.isEmpty then none else some (ds, t.drop ds.length)

/-- The number with its sign. -/
def signed (negative : Bool) (n : Nat) : Int := if negative then -(n : Int) else n

/-- The digits in front of the point: a zero stands alone. -/
def whole? : Text → Option (Text × Text)
  | 48 :: t => some ([48], t)
  | t => digits? t

/-- The digits behind a point, if there is a point. -/
def fraction? : Text → Option (Text × Text)
  | 46 :: t => digits? t
  | t => some ([], t)

/-- The power of ten, if one is given. -/
def power? : Text → Option (Int × Text)
  | [] => some (0, [])
  | b :: t =>
    if b = 101 || b = 69 then
      let (negative, u) := match t with
        | 43 :: u => (false, u)
        | 45 :: u => (true, u)
        | _ => (false, t)
      (digits? u).map fun (ds, rest) => (signed negative (digitsValue ds), rest)
    else some (0, b :: t)

/-- The rest of a number after its sign. -/
def unsigned? (negative : Bool) (t : Text) : Option (JsonValue × Text) := do
  let (whole, t) ← whole? t
  let (fraction, t) ← fraction? t
  let (power, t) ← power? t
  return (number (signed negative (digitsValue (whole ++ fraction))) (power - fraction.length), t)

/-- A number. -/
def numeral : Reader JsonValue := fun t =>
  let found := match t with
    | 45 :: u => unsigned? true u
    | _ => unsigned? false t
  found.bind fun (v, rest) => upTo? v rest t

/-! ### Lists and objects -/

/-- Items with a comma between neighbours, up to the closing byte; there is at least one. -/
def items {α : Type} (item : Reader α) (closing : UInt8) : Reader (List α) := fun t =>
  match item t with
  | none => none
  | some ⟨a, rest, h⟩ =>
    match hr : skipBlanks rest with
    | [] => none
    | b :: u =>
      have hu : u.length < rest.length := by
        have := length_skipBlanks rest
        rwa [hr] at this
      if b = closing then some ⟨[a], u, Nat.lt_trans hu h⟩
      else if b = 44 then
        (items item closing (skipBlanks u)).map fun p =>
          (p.map (a :: ·)).weaken (by have := length_skipBlanks u; omega)
      else none
termination_by t => t.length
decreasing_by
  have := length_skipBlanks u
  omega

/-- Items between an opening and a closing byte. -/
def between {α : Type} (item : Reader α) (opening closing : UInt8) : Reader (List α) := fun t =>
  match t with
  | [] => none
  | b :: u =>
    if b = opening then
      match hu : skipBlanks u with
      | [] => none
      | c :: rest =>
        have hrest : rest.length < u.length := by
          have := length_skipBlanks u
          rwa [hu] at this
        if c = closing then some ⟨[], rest, Nat.lt_succ_of_lt hrest⟩
        else (items item closing (c :: rest)).map
          fun p => p.weaken (by simp only [List.length_cons]; omega)
    else none

/-- A name, a colon and a value. -/
def field (value : Reader JsonValue) : Reader (Text × JsonValue) := fun t =>
  match text t with
  | none => none
  | some ⟨name, rest, h⟩ =>
    match hr : skipBlanks rest with
    | [] => none
    | b :: u =>
      have hu : u.length < rest.length := by
        have := length_skipBlanks rest
        rwa [hr] at this
      if b = 58 then
        (value (skipBlanks u)).map fun p =>
          (p.map (name, ·)).weaken (by have := length_skipBlanks u; omega)
      else none

/-- A value, from how the values in it are read. Its first byte tells what it is. -/
def valueWith (value : Reader JsonValue) : Reader JsonValue := fun t =>
  match t.head? with
  | some 34 => (text t).map (·.map string)
  | some 91 => (between value 91 93 t).map (·.map array)
  | some 123 => (between (field value) 123 125 t).map (·.map object)
  | some 110 => word (utf8 "null") null t
  | some 116 => word (utf8 "true") (boolean true) t
  | some 102 => word (utf8 "false") (boolean false) t
  | _ => numeral t

/-- A value with others nested in it `depth` deep. -/
def value : (depth : Nat) → Reader JsonValue
  | 0 => valueWith fun _ => none
  | depth + 1 => valueWith (value depth)

/-- **What a JSON text stands for**; none if it is no JSON text. A text has no more values nested in
one another than it has bytes. -/
def read? (t : Text) : Option JsonValue :=
  match value t.length (skipBlanks t) with
  | none => none
  | some p => if (skipBlanks p.rest).isEmpty then some p.value else none

end JsonValue

end Scriptlet
