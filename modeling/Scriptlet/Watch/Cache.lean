import Scriptlet.Text

/-!
# An adaptive cache

A cache that keeps what was used lately and what was used often. Keys seen once lately stand in one
list and keys seen again in another; keys that had to leave either list are remembered in a list of
their own, without their values, and when one of them comes back the room given to its list grows.

The lists have the oldest entry first, and none ever holds more than the size of the cache.
-/

namespace Scriptlet

/-- An adaptive cache with keys that are texts. -/
structure Cache (α : Type) where
  /-- How many keys each list can hold. -/
  size : Nat
  /-- How many keys seen once should be kept. -/
  aim : Nat
  /-- Keys seen once lately, with their values. -/
  once : List (Text × α)
  /-- Keys seen again, with their values. -/
  often : List (Text × α)
  /-- Keys that left the first list. -/
  onceGone : List Text
  /-- Keys that left the second list. -/
  oftenGone : List Text

namespace Cache

variable {α : Type}

/-- A cache with nothing in it. -/
def empty (size : Nat) : Cache α := ⟨size, 0, [], [], [], []⟩

/-- A list with one more entry at its new end, and without its oldest if it is too long. -/
def append {β : Type} (size : Nat) (l : List β) (b : β) : List β :=
  let l := l ++ [b]
  if size < l.length then l.drop 1 else l

/-- Pairs without those of a key. -/
def without (k : Text) (l : List (Text × α)) : List (Text × α) := l.filter fun e => e.1 != k

/-- The keys in the cache: those seen once, then those seen again, each oldest first. -/
def keys (c : Cache α) : List Text := (c.once ++ c.often).map Prod.fst

/-- The value of a key, and the cache after the key was asked for. -/
def get (c : Cache α) (k : Text) : Option α × Cache α :=
  match c.once.lookup k with
  | some v =>
    (some v, { c with once := without k c.once, often := append c.size (without k c.often) (k, v) })
  | none =>
    match c.often.lookup k with
    | some v => (some v, { c with often := append c.size (without k c.often) (k, v) })
    | none => (none, c)

/-- Makes room: the oldest of the keys seen once leaves if there are more of them than aimed at, or
just as many and a key comes back to the other list; else the oldest of the others leaves. -/
def makeRoom (c : Cache α) (backToOften : Bool) : Cache α :=
  let n := c.once.length
  if 0 < n && (c.aim < n || (n = c.aim && backToOften)) then
    match c.once with
    | [] => c
    | (k, _) :: rest => { c with once := rest, onceGone := append c.size c.onceGone k }
  else
    match c.often with
    | [] => c
    | (k, _) :: rest => { c with often := rest, oftenGone := append c.size c.oftenGone k }

/-- The cache after making room, if it is full. -/
def roomy (c : Cache α) (backToOften : Bool) : Cache α :=
  if c.size ≤ c.once.length + c.often.length then c.makeRoom backToOften else c

/-- By how much the aim moves when a key comes back to a list of gone keys with `here` keys, while
the other has `there`. -/
def shift (here there : Nat) : Nat := if here < there then there / here else 1

/-- The cache with a value for a key. -/
def add (c : Cache α) (k : Text) (v : α) : Cache α :=
  if (c.once.lookup k).isSome then
    { c with once := without k c.once, often := append c.size (without k c.often) (k, v) }
  else if (c.often.lookup k).isSome then
    { c with often := append c.size (without k c.often) (k, v) }
  else if c.onceGone.contains k then
    let aim := min c.size (c.aim + shift c.onceGone.length c.oftenGone.length)
    let c := roomy { c with aim := aim } false
    { c with
      onceGone := c.onceGone.filter (· != k)
      often := append c.size (without k c.often) (k, v) }
  else if c.oftenGone.contains k then
    let aim := c.aim - shift c.oftenGone.length c.onceGone.length
    let c := roomy { c with aim := aim } true
    { c with
      oftenGone := c.oftenGone.filter (· != k)
      often := append c.size (without k c.often) (k, v) }
  else
    let c := c.roomy false
    { c with
      onceGone := if c.size - c.aim < c.onceGone.length then c.onceGone.drop 1 else c.onceGone
      oftenGone := if c.aim < c.oftenGone.length then c.oftenGone.drop 1 else c.oftenGone
      once := append c.size c.once (k, v) }

end Cache

end Scriptlet
