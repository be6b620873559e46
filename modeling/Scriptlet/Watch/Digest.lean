import Scriptlet.Text

/-!
# Digests

A 64-bit digest of a text, by the algorithm XXH64 with seed zero: stripes of 32 bytes are mixed into
four lanes, the lanes are folded into one word, the remaining bytes are mixed in, and the word is
stirred until every bit depends on every other.
-/

namespace Scriptlet.Digest

/-- The first multiplier. -/
def prime1 : UInt64 := 11400714785074694791

/-- The second multiplier. -/
def prime2 : UInt64 := 14029467366897019727

/-- The third multiplier. -/
def prime3 : UInt64 := 1609587929392839161

/-- The fourth multiplier. -/
def prime4 : UInt64 := 9650029242287828579

/-- The fifth multiplier. -/
def prime5 : UInt64 := 2870177450012600261

/-- The bits of a word turned left. -/
def rotate (x n : UInt64) : UInt64 := (x <<< n) ||| (x >>> (64 - n))

/-- The word whose bytes, lowest first, are given. -/
def wordOf : Text → UInt64
  | [] => 0
  | b :: t => b.toUInt64 ||| (wordOf t <<< 8)

/-- A lane with one more word. -/
def mix (lane word : UInt64) : UInt64 := rotate (lane + word * prime2) 31 * prime1

/-- The four lanes. -/
structure Lanes where
  /-- The first lane. -/
  a : UInt64
  /-- The second lane. -/
  b : UInt64
  /-- The third lane. -/
  c : UInt64
  /-- The fourth lane. -/
  d : UInt64

namespace Lanes

/-- The lanes before the first stripe. -/
def start : Lanes := ⟨prime1 + prime2, prime2, 0, 0 - prime1⟩

/-- The lanes with a stripe of 32 bytes. -/
def add (l : Lanes) (t : Text) : Lanes :=
  ⟨mix l.a (wordOf (t.take 8)), mix l.b (wordOf ((t.drop 8).take 8)),
    mix l.c (wordOf ((t.drop 16).take 8)), mix l.d (wordOf ((t.drop 24).take 8))⟩

/-- A word with one lane folded in. -/
def fold (h lane : UInt64) : UInt64 := (h ^^^ mix 0 lane) * prime1 + prime4

/-- The word of all lanes. -/
def merge (l : Lanes) : UInt64 :=
  let h := rotate l.a 1 + rotate l.b 7 + rotate l.c 12 + rotate l.d 18
  fold (fold (fold (fold h l.a) l.b) l.c) l.d

end Lanes

/-- The lanes after all whole stripes, and the bytes that are left. -/
def stripes (l : Lanes) (t : Text) : Lanes × Text :=
  if 32 ≤ t.length then stripes (l.add t) (t.drop 32) else (l, t)
termination_by t.length
decreasing_by simp only [List.length_drop]; omega

/-- A word with the last few bytes mixed in, eight at a time, then four, then one by one. -/
def finish (h : UInt64) (t : Text) : UInt64 :=
  if 8 ≤ t.length then
    finish (rotate (h ^^^ mix 0 (wordOf (t.take 8))) 27 * prime1 + prime4) (t.drop 8)
  else if 4 ≤ t.length then
    finish (rotate (h ^^^ (wordOf (t.take 4) * prime1)) 23 * prime2 + prime3) (t.drop 4)
  else t.foldl (fun h b => rotate (h ^^^ (b.toUInt64 * prime5)) 11 * prime1) h
termination_by t.length
decreasing_by all_goals simp only [List.length_drop]; omega

/-- A word stirred. -/
def stir (h : UInt64) : UInt64 :=
  let h := (h ^^^ (h >>> 33)) * prime2
  let h := (h ^^^ (h >>> 29)) * prime3
  h ^^^ (h >>> 32)

end Digest

/-- The digest of a text. -/
def digest (t : Text) : UInt64 :=
  let (l, rest) := Digest.stripes Digest.Lanes.start t
  let h := if 32 ≤ t.length then l.merge else Digest.prime5
  Digest.stir (Digest.finish (h + t.length.toUInt64) rest)

end Scriptlet
