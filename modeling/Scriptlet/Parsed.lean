/-!
# Values read from the front of a list

What a reader hands back: the value, and what is left of the list, which is always shorter. So a
reader may be called again on what is left, and the recursion ends.
-/

namespace Scriptlet

/-- A value read from the front of the list `l`. -/
structure Parsed (α : Type) {β : Type} (l : List β) where
  /-- The value. -/
  value : α
  /-- What is left of the list. -/
  rest : List β
  /-- At least one element was used. -/
  shorter : rest.length < l.length

namespace Parsed

variable {α β γ : Type} {l : List β}

/-- The value changed by a function. -/
def map (f : α → γ) (p : Parsed α l) : Parsed γ l := ⟨f p.value, p.rest, p.shorter⟩

/-- The value `a` made of the first `n` elements, if there are that many and `n` is not zero. -/
def take? (n : Nat) (a : α) (l : List β) : Option (Parsed α l) :=
  if h : 0 < n ∧ n ≤ l.length then some ⟨a, l.drop n, by rw [List.length_drop]; omega⟩ else none

/-- What was read from the end of a shorter list was read from the list. -/
def weaken {l' : List β} (p : Parsed α l') (h : l'.length ≤ l.length) : Parsed α l :=
  ⟨p.value, p.rest, Nat.lt_of_lt_of_le p.shorter h⟩

end Parsed

end Scriptlet
