import Mathlib.Data.List.Nodup

/-!
# Association lists

Where no key stands twice, looking up a key and finding a pair in the list are the same
(`lookup_eq_some_iff`).
-/

namespace Scriptlet

variable {κ α : Type} [BEq κ] [LawfulBEq κ]

theorem lookup_cons_eq [DecidableEq κ] (k k' : κ) (a : α) (l : List (κ × α)) :
    ((k', a) :: l).lookup k = if k = k' then some a else l.lookup k := by
  rw [List.lookup_cons]
  by_cases h : k = k'
  · rw [if_pos h, beq_iff_eq.2 h]
  · rw [if_neg h, beq_eq_false_iff_ne.2 h]

theorem mem_of_lookup_eq_some {l : List (κ × α)} {k : κ} {a : α} (h : l.lookup k = some a) :
    (k, a) ∈ l := by
  obtain ⟨before, after, rfl, -⟩ := List.lookup_eq_some_iff.1 h
  simp

theorem lookup_eq_some_iff {l : List (κ × α)} (hl : (l.map Prod.fst).Nodup) {k : κ} {a : α} :
    l.lookup k = some a ↔ (k, a) ∈ l := by
  refine ⟨mem_of_lookup_eq_some, fun h => ?_⟩
  induction l with
  | nil => cases h
  | cons d l ih =>
    obtain ⟨k', a'⟩ := d
    rw [List.map_cons, List.nodup_cons] at hl
    rcases List.mem_cons.1 h with heq | hmem
    · rw [(Prod.mk.inj heq).1, (Prod.mk.inj heq).2, List.lookup_cons_self]
    · have hne : k ≠ k' := by
        rintro rfl
        exact hl.1 (List.mem_map.2 ⟨(k, a), hmem, rfl⟩)
      rw [List.lookup_cons, beq_eq_false_iff_ne.2 hne]
      exact ih hl.2 hmem

end Scriptlet
