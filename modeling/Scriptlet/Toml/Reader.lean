import Scriptlet.Parsed
import Scriptlet.Text.Rune

/-!
# Reading TOML

Comments, headers of tables and of tables in arrays, and keys with their values: dates and times,
floats, integers, strings on one line and on many, booleans, arrays and inline tables. A text is
read into its entries, in order, each with its line. An inline table is an entry for its opening,
then its pairs, then an entry for its end.

A table's own entries follow its header and need not stand on lines of their own; other entries do.
-/

namespace Scriptlet.Toml

/-- A value. Of dates and times, and of arrays, nothing is kept. -/
inductive Value where
  /-- A date, a time, or both. -/
  | datetime
  /-- An integer, with its sign but without underscores. -/
  | integer (digits : Text)
  /-- A float, without underscores. -/
  | float (digits : Text)
  /-- A truth value. -/
  | boolean (b : Bool)
  /-- A string. -/
  | string (t : Text)
  /-- An array. -/
  | array

/-- An entry of a text, with the line on which it ends. -/
inductive Entry where
  /-- The header of a table: its name as written, and the keys it is made of. -/
  | table (line : Nat) (name : Text) (path : List Text)
  /-- The header of a further table of an array. -/
  | element (line : Nat) (name : Text) (path : List Text)
  /-- A key with its value. -/
  | pair (line : Nat) (key : Text) (value : Value)
  /-- A key with an inline table, of which only the opening was read. -/
  | opening (line : Nat) (key : Text)
  /-- The same inside an array: a further table under the key of the array. -/
  | openingElement (line : Nat) (key : Text)
  /-- The end of an inline table. -/
  | closing
  /-- A header or pair with a string that stands for no text. -/
  | unreadable (line : Nat)

/-- A reader of something at the front of a text. -/
abbrev Reader (α : Type) := (t : Text) → Option (Parsed α t)

/-- What a piece of text stands for; or the line of the first string in it with an escape that
stands for no character. -/
abbrev Readable (α : Type) := Except Nat α

/-! ### Lines -/

/-- Does the byte end a line? -/
def isBreak (b : UInt8) : Bool := b = 10 || b = 13

/-- The number of line ends in a text. -/
def breaks (t : Text) : Nat := t.countP isBreak

/-- The line on which `rest` begins, if it is the end of a text with `total` line ends. -/
def lineAt (total : Nat) (rest : Text) : Nat := total - breaks rest + 1

variable (total : Nat)

/-! ### Blanks and comments -/

/-- Is the byte a space or a tab? -/
def isSpace (b : UInt8) : Bool := b = 32 || b = 9

/-- May the byte stand in a comment or a string on one line: is it a tab or no control? -/
def isPlain (b : UInt8) : Bool := 32 ≤ b || b = 9

/-- Without the spaces at the front. -/
def skipSpaces (t : Text) : Text := t.dropWhile isSpace

/-- Without the spaces and line ends at the front. -/
def skipLayout (t : Text) : Text := t.dropWhile fun b => isSpace b || isBreak b

/-- Without the comment at the front. -/
def skipComment : Text → Text
  | 35 :: t => t.dropWhile isPlain
  | t => t

/-- Without the spaces, and then the comment, at the front. -/
def skipToEnd (t : Text) : Text := skipComment (skipSpaces t)

theorem length_dropWhile_le {α : Type} (p : α → Bool) (l : List α) :
    (l.dropWhile p).length ≤ l.length := (List.dropWhile_sublist p).length_le

theorem length_skipSpaces (t : Text) : (skipSpaces t).length ≤ t.length := length_dropWhile_le _ t

theorem length_skipLayout (t : Text) : (skipLayout t).length ≤ t.length := length_dropWhile_le _ t

theorem length_skipComment (t : Text) : (skipComment t).length ≤ t.length := by
  unfold skipComment
  split
  · exact Nat.le_succ_of_le (length_dropWhile_le _ _)
  · exact Nat.le_refl _

theorem length_skipToEnd (t : Text) : (skipToEnd t).length ≤ t.length :=
  Nat.le_trans (length_skipComment _) (length_skipSpaces t)

/-- What is left after a comment, with spaces and line ends around it. -/
def skipAround (t : Text) : Text := skipLayout (skipComment (skipLayout t))

theorem length_skipAround (t : Text) : (skipAround t).length ≤ t.length :=
  Nat.le_trans (length_skipLayout _) (Nat.le_trans (length_skipComment _) (length_skipLayout t))

/-! ### Strings -/

/-- The value of a hexadecimal digit. -/
def hexDigit? (b : UInt8) : Option Nat :=
  if Text.isDigit b then some (b.toNat - 48)
  else if 97 ≤ b && b ≤ 102 then some (b.toNat - 87)
  else if 65 ≤ b && b ≤ 70 then some (b.toNat - 55)
  else none

/-- The number that the first `n` bytes stand for, if they are hexadecimal digits. -/
def hexNumber? : (n : Nat) → Text → Option Nat
  | 0, _ => some 0
  | _ + 1, [] => none
  | n + 1, b :: t => do
    let d ← hexDigit? b
    let rest ← hexNumber? n t
    return d * Nat.pow 16 n + rest

/-- The bytes of a character; none if the number is no character. -/
def character? (code : Nat) : Option Text :=
  if (0xD800 ≤ code && code ≤ 0xDFFF) || 0x10FFFF < code then none else some (Rune.encode code)

/-- An escape after its backslash: the bytes it stands for, if it stands for a character, and its
length. -/
def escape? : Text → Option (Option Text × Nat)
  | 98 :: _ => some (some [8], 1)
  | 116 :: _ => some (some [9], 1)
  | 110 :: _ => some (some [10], 1)
  | 102 :: _ => some (some [12], 1)
  | 114 :: _ => some (some [13], 1)
  | 34 :: _ => some (some [34], 1)
  | 92 :: _ => some (some [92], 1)
  | 47 :: _ => some (none, 1)
  | 117 :: t => (hexNumber? 4 t).map fun n => (character? n, 5)
  | 85 :: t => (hexNumber? 8 t).map fun n => (character? n, 9)
  | _ => none

/-- Two pieces of a string, one after the other. -/
def appendPieces (s t : Option Text) : Option Text := do return (← s) ++ (← t)

/-- The rest of a string with escapes behind its opening: what it stands for, and its length with
the closing quotes. A long string goes over many lines and ends with three quotes; a backslash at
the end of a line stands for nothing, and neither does the layout behind it. -/
def stringBody? (long : Bool) (t : Text) : Option (Option Text × Nat) :=
  match t with
  | [] => none
  | b :: rest =>
    if b = 34 then
      if long then (if Text.startsWith rest [34, 34] then some (some [], 3) else none)
      else some (some [], 1)
    else if b = 92 then
      if long && rest.head?.any isBreak then
        let n := (rest.takeWhile fun b => isSpace b || isBreak b).length
        (stringBody? long (rest.drop n)).map fun body => (body.1, n + body.2 + 1)
      else
        match escape? rest with
        | none => none
        | some (piece, n) =>
          (stringBody? long (rest.drop n)).map
            fun body => (appendPieces piece body.1, n + body.2 + 1)
    else if b < 32 && !(long && isBreak b) then none
    else (stringBody? long rest).map fun body => (appendPieces (some [b]) body.1, body.2 + 1)
termination_by t.length
decreasing_by all_goals simp only [List.length_drop, List.length_cons]; omega

/-- A string with escapes on one line, and its length. -/
def basicString? : Text → Option (Option Text × Nat)
  | 34 :: t => (stringBody? false t).map fun body => (body.1, body.2 + 1)
  | _ => none

/-- A string with escapes on many lines, and its length. Line ends at its front do not count. -/
def longString? : Text → Option (Option Text × Nat)
  | 34 :: 34 :: 34 :: t =>
    let n := (t.takeWhile isBreak).length
    (stringBody? true (t.drop n)).map fun body => (body.1, body.2 + n + 3)
  | _ => none

/-- A string without escapes on one line, and its length. -/
def literalString? : Text → Option (Text × Nat)
  | 39 :: t =>
    let body := t.takeWhile fun b => isPlain b && b != 39
    if t[body.length]? = some 39 then some (body, body.length + 2) else none
  | _ => none

/-- What stands in front of the first three quotes. -/
def longLiteralBody? (t : Text) : Option Text :=
  if Text.startsWith t [39, 39, 39] then some []
  else
    match t with
    | [] => none
    | b :: rest => if isPlain b || isBreak b then (longLiteralBody? rest).map (b :: ·) else none

/-- A string without escapes on many lines, and its length. Line ends at its front do not count. -/
def longLiteral? : Text → Option (Text × Nat)
  | 39 :: 39 :: 39 :: t =>
    let n := (t.takeWhile isBreak).length
    (longLiteralBody? (t.drop n)).map fun body => (body, body.length + n + 6)
  | _ => none

/-- A string with escapes that was found at the front of a text: it stands for a text, or not. -/
def readString (t : Text) : Option (Option Text × Nat) → Option (Parsed (Readable Text) t)
  | some (some s, n) => Parsed.take? n (.ok s) t
  | some (none, n) => Parsed.take? n (.error (lineAt total (t.drop n))) t
  | none => none

/-- A string of any form. -/
def string : Reader (Readable Value) := fun t =>
  match longLiteral? t <|> literalString? t with
  | some (s, n) => Parsed.take? n (.ok (.string s)) t
  | none =>
    (readString total t (longString? t <|> basicString? t)).map
      fun p => p.map fun s => s.map Value.string

/-! ### Dates and times -/

/-- Does the text begin like the pattern, where a zero stands for any digit? -/
def fits : (pattern : Text) → Text → Bool
  | [], _ => true
  | _ :: _, [] => false
  | p :: ps, b :: t => (if p = 48 then Text.isDigit b else b = p) && fits ps t

/-- The length of a time of day, maybe with a fraction of a second; zero if there is none. -/
def timeLength (t : Text) : Nat :=
  if fits (utf8 "00:00:00") t then
    match t.drop 8 with
    | 46 :: u =>
      let n := (u.takeWhile Text.isDigit).length
      if n = 0 then 8 else 8 + n + 1
    | _ => 8
  else 0

/-- The length of the difference to universal time; zero if there is none. -/
def offsetLength (t : Text) : Nat :=
  if Text.startsWith t (utf8 "Z") then 1
  else if fits (utf8 "+00:00") t || fits (utf8 "-00:00") t then 6
  else 0

/-- The length of what may follow a date: a time with its difference to universal time. -/
def fullTimeLength : Text → Nat
  | 84 :: t =>
    let time := timeLength t
    let offset := offsetLength (t.drop time)
    if time = 0 || offset = 0 then 0 else time + offset + 1
  | _ => 0

/-- A date, maybe with a time, or a time. -/
def datetime : Reader Value := fun t =>
  if fits (utf8 "0000-00-00") t then Parsed.take? (fullTimeLength (t.drop 10) + 10) .datetime t
  else Parsed.take? (timeLength t) .datetime t

/-! ### Numbers and truth values -/

/-- How long the run of digits is in which underscores may stand before a digit. -/
def digitRun : Text → Nat
  | 95 :: d :: t => if Text.isDigit d then digitRun t + 2 else 0
  | d :: t => if Text.isDigit d then digitRun t + 1 else 0
  | [] => 0

/-- The length of an unsigned integer: more than one digit if it does not begin with a zero. -/
def unsignedLength : Text → Nat
  | [] => 0
  | d :: t => if Text.isDigit d then (if d = 48 then 1 else digitRun t + 1) else 0

/-- The length of a sign. -/
def signLength : Text → Nat
  | b :: _ => if b = 43 || b = 45 then 1 else 0
  | [] => 0

/-- The length of an integer; zero if there is none. -/
def integerLength (t : Text) : Nat :=
  let s := signLength t
  let n := unsignedLength (t.drop s)
  if n = 0 then 0 else s + n

/-- The length of the digits after a sign or mark of length `n`; zero if there are none. -/
def markedLength (n : Nat) (t : Text) : Nat :=
  match t.drop n with
  | [] => 0
  | d :: t => if Text.isDigit d then n + digitRun t + 1 else 0

/-- The length of a fraction with its point. -/
def fractionLength : Text → Nat
  | 46 :: t => markedLength 1 (46 :: t)
  | _ => 0

/-- The length of an exponent with its mark. -/
def exponentLength : Text → Nat
  | b :: t => if b = 101 || b = 69 then markedLength (signLength t + 1) (b :: t) else 0
  | [] => 0

/-- A float, or else an integer. -/
def number : Reader Value := fun t =>
  let n := integerLength t
  if n = 0 then none
  else
    let fraction := fractionLength (t.drop n)
    let exponent := exponentLength (t.drop (n + fraction))
    if fraction + exponent = 0 then
      Parsed.take? n (.integer ((t.take n).filter (· != 95))) t
    else
      let n := n + fraction + exponent
      Parsed.take? n (.float ((t.take n).filter (· != 95))) t

/-- A truth value. -/
def boolean : Reader Value := fun t =>
  if Text.startsWith t (utf8 "true") then Parsed.take? 4 (.boolean true) t
  else if Text.startsWith t (utf8 "false") then Parsed.take? 5 (.boolean false) t
  else none

/-! ### Arrays -/

/-- What a value comes to: the entries of the inline tables in it, and the value itself, unless it
is made of inline tables. -/
structure Content where
  /-- The entries. -/
  entries : List Entry
  /-- The value. -/
  value? : Option Value

namespace Content

/-- The content of a value without inline tables. -/
def ofReadable : Readable Value → Content
  | .ok v => ⟨[], some v⟩
  | .error line => ⟨[.unreadable line], none⟩

/-- The content of an array with one value. -/
def single (c : Content) : Content := ⟨c.entries, c.value?.map fun _ => .array⟩

/-- The content of an array with one more value at its front. -/
def cons (c more : Content) : Content :=
  ⟨c.entries ++ more.entries, c.value?.bind fun _ => more.value?⟩

end Content

/-- The end of an array after its last value: one comma and then one comment may stand before the
closing bracket. -/
def closing : Reader Unit := fun t =>
  let u := match skipLayout t with
    | 44 :: u => u
    | u => u
  match skipAround u with
  | 93 :: rest => Parsed.take? (t.length - rest.length) () t
  | _ => none

/-- The values of an array up to its closing bracket, of which there is at least one. One comment
may stand on each side of the comma between two values. -/
def elements (value : Reader Content) : Reader Content := fun t =>
  match value t with
  | none => none
  | some ⟨c, rest, h⟩ =>
    let last := (closing rest).map fun p => (p.map fun _ => c.single).weaken (Nat.le_of_lt h)
    match hr : skipAround rest with
    | 44 :: u =>
      match elements value (skipAround u) with
      | some p =>
        some ((p.map c.cons).weaken (by
          have h1 := length_skipAround rest
          have h2 := length_skipAround u
          rw [hr, List.length_cons] at h1
          omega))
      | none => last
    | _ => last
termination_by t => t.length
decreasing_by
  have h1 := length_skipAround rest
  have h2 := length_skipAround u
  rw [hr, List.length_cons] at h1
  omega

/-- An array, from how its values are read. -/
def array (value : Reader Content) : Reader Content := fun t =>
  match t with
  | 91 :: u =>
    match hu : skipLayout u with
    | 93 :: v =>
      some ⟨⟨[], some .array⟩, v, by
        have := length_skipLayout u
        rw [hu, List.length_cons] at this
        rw [List.length_cons]
        omega⟩
    | w =>
      (elements value w).map fun p => p.weaken (by
        have := length_skipLayout u
        rw [hu] at this
        rw [List.length_cons]
        omega)
  | _ => none

/-! ### Keys and entries -/

/-- May the byte stand in a key without quotes? -/
def isKeyByte (b : UInt8) : Bool :=
  Text.isDigit b || (65 ≤ b && b ≤ 90) || (97 ≤ b && b ≤ 122) || b = 45 || b = 95

/-- A key, with quotes or without; only between quotes can it be empty. -/
def key : Reader (Readable Text) := fun t =>
  if Text.startsWith t [34] then readString total t (basicString? t)
  else
    let k := t.takeWhile isKeyByte
    Parsed.take? k.length (.ok k) t

/-- Keys divided by points. -/
def path : Reader (Readable (List Text)) := fun t =>
  match key total t with
  | none => none
  | some ⟨k, rest, h⟩ =>
    match hr : skipSpaces rest with
    | 46 :: u =>
      match path (skipSpaces u) with
      | some ⟨ks, rest', h'⟩ =>
        some ⟨(do return (← k) :: (← ks)), rest', by
          have h1 := length_skipSpaces rest
          have h2 := length_skipSpaces u
          simp [hr] at h1; omega⟩
      | none => some ⟨k.map ([·]), rest, h⟩
    | _ => some ⟨k.map ([·]), rest, h⟩
termination_by t => t.length
decreasing_by
  have h1 := length_skipSpaces rest
  have h2 := length_skipSpaces u
  simp [hr] at h1; omega

/-- The name of a table between its brackets, which are `n` bytes on each side, as written and as
its keys. -/
def bracketed (n : Nat) : Reader (Readable (Text × List Text)) := fun t =>
  if n = 0 || t.take n != List.replicate n 91 then none
  else
    let u := skipSpaces (t.drop n)
    match path total u with
    | none => none
    | some ⟨ks, rest, _⟩ =>
      let after := skipSpaces rest
      if after.take n = List.replicate n 93 then
        let written := u.take (u.length - rest.length)
        Parsed.take? (t.length - (after.length - n)) (ks.map fun ks => (written, ks)) t
      else none

/-- The entry that something readable makes. -/
def Entry.ofReadable {α : Type} (f : α → Entry) : Readable α → Entry
  | .ok a => f a
  | .error line => .unreadable line

/-- The header of a table. -/
def header : Reader Entry := fun t =>
  match bracketed total 1 t with
  | some p => some (p.map (Entry.ofReadable fun x => .table (lineAt total p.rest) x.1 x.2))
  | none =>
    (bracketed total 2 t).map fun p =>
      p.map (Entry.ofReadable fun x => .element (lineAt total p.rest) x.1 x.2)

/-- A key and its value, from how the value of a key is read. -/
def pairWith (value : Text → Reader Content) : Reader (List Entry) := fun t =>
  match key total t with
  | none => none
  | some ⟨k, rest, h⟩ =>
    match hr : skipSpaces rest with
    | 61 :: u =>
      let entries (rest : Text) (c : Content) : List Entry :=
        match k with
        | .error line => [.unreadable line]
        | .ok k => c.entries ++ (c.value?.map (Entry.pair (lineAt total rest) k)).toList
      (value (k.toOption.getD []) (skipSpaces u)).map fun p =>
        (p.map (entries p.rest)).weaken (by
          have h1 := length_skipSpaces rest
          have h2 := length_skipSpaces u
          simp [hr] at h1; omega)
    | _ => none

/-- Entries of a text that is only partly read. -/
structure Entries (t : Text) where
  /-- The entries. -/
  entries : List Entry
  /-- What is left. -/
  rest : Text
  /-- Nothing was added. -/
  le : rest.length ≤ t.length

/-! ### Inline tables -/

/-- Without the comma at the front, and the spaces around it. -/
def skipComma (t : Text) : Text :=
  match skipSpaces t with
  | 44 :: u => skipSpaces u
  | _ => t

theorem length_skipComma (t : Text) : (skipComma t).length ≤ t.length := by
  unfold skipComma
  split
  · rename_i u hu
    have h1 := length_skipSpaces t
    have h2 := length_skipSpaces u
    rw [hu, List.length_cons] at h1
    omega
  · exact Nat.le_refl _

/-- The pairs of an inline table. The comma between two of them may be left out. -/
def inlinePairs (pair : Reader (List Entry)) (t : Text) : Entries t :=
  match pair t with
  | none => ⟨[], t, Nat.le_refl _⟩
  | some ⟨es, rest, h⟩ =>
    let more := inlinePairs pair (skipComma rest)
    ⟨es ++ more.entries, more.rest, by
      have := more.le
      have := length_skipComma rest
      omega⟩
termination_by t.length
decreasing_by
  have := length_skipComma rest
  omega

/-- An inline table, from how its pairs are read, with the entry for its opening. -/
def inlineTable (opening : Nat → Entry) (pair : Reader (List Entry)) : Reader (List Entry) :=
  fun t =>
  match t with
  | 123 :: u =>
    let body := inlinePairs pair (skipSpaces u)
    match hr : skipSpaces body.rest with
    | 125 :: rest =>
      some ⟨opening (lineAt total t) :: body.entries ++ [.closing], rest, by
        have h1 := length_skipSpaces u
        have h2 := body.le
        have h3 := length_skipSpaces body.rest
        rw [hr, List.length_cons] at h3
        rw [List.length_cons]
        omega⟩
    | _ => none
  | _ => none

/-! ### Values -/

/-- A value, from how an array and an inline table are read. -/
def valueWith (array : Reader Content) (table : Reader (List Entry)) : Reader Content := fun t =>
  let plain (v : Value) : Content := ⟨[], some v⟩
  (datetime t).map (·.map plain) <|> (number t).map (·.map plain) <|>
    (string total t).map (·.map .ofReadable) <|> (boolean t).map (·.map plain) <|> array t <|>
    (table t).map (·.map fun es => ⟨es, none⟩)

/-- The value of a key, inside an array or not, with arrays and inline tables nested `depth`
deep. -/
def value : (depth : Nat) → (inArray : Bool) → (key : Text) → Reader Content
  | 0, _, _ => valueWith total (fun _ => none) fun _ => none
  | depth + 1, inArray, key =>
    let opening (line : Nat) : Entry := if inArray then .openingElement line key
      else .opening line key
    valueWith total (array (value depth true key))
      (inlineTable total opening (pairWith total (value depth inArray)))

/-- A key and its value. -/
def pair : Reader (List Entry) := fun t => pairWith total (value total t.length false) t

/-! ### Expressions -/

/-- The pairs that follow a header. -/
def pairs (t : Text) : Entries t :=
  match pair total (skipLayout t) with
  | none => ⟨[], t, Nat.le_refl _⟩
  | some ⟨es, rest, h⟩ =>
    let more := pairs (skipToEnd rest)
    ⟨es ++ more.entries, more.rest, by
      have := more.le
      have := length_skipToEnd rest
      have := length_skipLayout t
      omega⟩
termination_by t.length
decreasing_by
  have := length_skipToEnd rest
  have := length_skipLayout t
  omega

/-- A header with its pairs, a pair, a comment, or nothing. -/
def expression (t : Text) : Entries t :=
  let u := skipSpaces t
  match header total u with
  | some ⟨e, rest, h⟩ =>
    let more := pairs total (skipToEnd rest)
    ⟨e :: more.entries, more.rest, by
      have := more.le
      have := length_skipToEnd rest
      have : u.length ≤ t.length := length_skipSpaces t
      omega⟩
  | none =>
    match pair total u with
    | some ⟨es, rest, h⟩ =>
      ⟨es, skipToEnd rest, by
        have := length_skipToEnd rest
        have : u.length ≤ t.length := length_skipSpaces t
        omega⟩
    | none => ⟨[], skipComment u, Nat.le_trans (length_skipComment u) (length_skipSpaces t)⟩

/-- Expressions divided by line ends, up to the end of the text. -/
def expressions (t : Text) : Option (List Entry) :=
  match expression total t with
  | ⟨es, [], _⟩ => some es
  | ⟨es, b :: rest, _⟩ =>
    if isBreak b then (expressions (rest.dropWhile isBreak)).map (es ++ ·) else none
termination_by t.length
decreasing_by
  rename_i h _
  have := length_dropWhile_le isBreak rest
  simp at h
  omega

/-- The entries of a text; none if it is not TOML. Malformed bytes are read as `U+FFFD`. -/
def read? (t : Text) : Option (List Entry) :=
  let t := Text.repaired t
  expressions (breaks t) t

end Scriptlet.Toml
