import Mathlib.Data.List.Dedup
import Mathlib.Data.List.Perm.Subperm
import Mathlib.Logic.Function.Basic
import Scriptlet.Watch.Cache

/-!
# What a cache remembers

A cache is seen through its pairs of keys and values. Asking for a key gives the value that stands
with it and forgets nothing that fits (`get_fst`, `perm_get`); adding a value leaves no other value
with its key (`mem_pairs_add`), and drops no other pair while there is room (`perm_add`). So a cache
knows nothing but the values last added (`Faithful`), and all of them as long as there is room for
their keys (`Remembers`).
-/

namespace Scriptlet.Cache

variable {α : Type}

/-- The keys in the cache with their values. -/
def pairs (c : Cache α) : List (Text × α) := c.once ++ c.often

theorem keys_eq (c : Cache α) : c.keys = c.pairs.map Prod.fst := rfl

/-! ### Lists of pairs -/

theorem mem_of_lookup {l : List (Text × α)} {k : Text} {v : α} (h : l.lookup k = some v) :
    (k, v) ∈ l := by
  obtain ⟨l₁, l₂, rfl, -⟩ := List.lookup_eq_some_iff.1 h
  simp

theorem ne_of_lookup_eq_none {l : List (Text × α)} {k : Text} (h : l.lookup k = none) :
    ∀ e ∈ l, e.1 ≠ k := by
  intro e he hk
  have := List.lookup_eq_none_iff.1 h e he
  simp [hk] at this

theorem mem_without {l : List (Text × α)} {k : Text} {e : Text × α} :
    e ∈ without k l ↔ e ∈ l ∧ e.1 ≠ k := by
  simp [without]

theorem without_append (k : Text) (l m : List (Text × α)) :
    without k (l ++ m) = without k l ++ without k m := List.filter_append ..

theorem without_eq_self {l : List (Text × α)} {k : Text} (h : ∀ e ∈ l, e.1 ≠ k) :
    without k l = l := by
  simpa [without] using h

/-- A pair that is moved to the front is not lost. -/
theorem perm_without {l : List (Text × α)} {k : Text} {v : α} (hl : (l.map Prod.fst).Nodup)
    (h : (k, v) ∈ l) : ((k, v) :: without k l).Perm l := by
  induction l with
  | nil => cases h
  | cons e l ih =>
    rw [List.map_cons, List.nodup_cons] at hl
    by_cases he : e.1 = k
    · have hkeep : ∀ e' ∈ l, e'.1 ≠ k := by
        intro e' he' hk
        exact hl.1 (he ▸ hk ▸ List.mem_map_of_mem he')
      obtain rfl : (k, v) = e := by
        rcases List.mem_cons.1 h with h | h
        · exact h
        · exact absurd rfl (hkeep _ h)
      have hw : without k ((k, v) :: l) = l := by
        rw [without, List.filter_cons_of_neg (by simp)]
        exact without_eq_self hkeep
      rw [hw]
    · have hm : (k, v) ∈ l := by
        rcases List.mem_cons.1 h with rfl | h
        · exact absurd rfl he
        · exact h
      have hw : without k (e :: l) = e :: without k l := List.filter_cons_of_pos (by simpa using he)
      rw [hw]
      exact (List.Perm.swap e (k, v) _).trans ((ih hl.2 hm).cons e)

theorem mem_append {β : Type} {size : Nat} {l : List β} {b e : β} (h : e ∈ append size l b) :
    e ∈ l ∨ e = b := by
  have hmem : e ∈ l ++ [b] := by
    rw [append] at h
    split at h
    · exact List.mem_of_mem_drop h
    · exact h
  simpa using hmem

theorem append_of_lt {β : Type} {size : Nat} {l : List β} (b : β) (h : l.length < size) :
    append size l b = l ++ [b] := by
  simp [append, Nat.not_lt.2 h]

/-! ### Asking for a key -/

theorem get_fst (c : Cache α) (k : Text) : (c.get k).1 = c.pairs.lookup k := by
  rw [pairs, List.lookup_append, get]
  cases c.once.lookup k with
  | some v => rfl
  | none => cases c.often.lookup k <;> rfl

theorem get_size (c : Cache α) (k : Text) : (c.get k).2.size = c.size := by
  rw [get]
  split
  · rfl
  · split <;> rfl

/-- Asking for a key brings nothing into the cache. -/
theorem mem_pairs_get {c : Cache α} {k : Text} {e : Text × α} (h : e ∈ (c.get k).2.pairs) :
    e ∈ c.pairs := by
  rw [get] at h
  cases h₁ : c.once.lookup k with
  | some v =>
    rw [h₁] at h
    rcases List.mem_append.1 h with h | h
    · exact List.mem_append_left _ (mem_without.1 h).1
    · rcases mem_append h with h | rfl
      · exact List.mem_append_right _ (mem_without.1 h).1
      · exact List.mem_append_left _ (mem_of_lookup h₁)
  | none =>
    rw [h₁] at h
    cases h₂ : c.often.lookup k with
    | some v =>
      rw [h₂] at h
      rcases List.mem_append.1 h with h | h
      · exact List.mem_append_left _ h
      · rcases mem_append h with h | rfl
        · exact List.mem_append_right _ (mem_without.1 h).1
        · exact List.mem_append_right _ (mem_of_lookup h₂)
    | none =>
      rw [h₂] at h
      exact h

/-- A pair that is put behind the others that were used again takes the place of those with its
key. -/
theorem perm_use {c : Cache α} {k : Text} (v : α) (hroom : (without k c.pairs).length < c.size) :
    (without k c.once ++ append c.size (without k c.often) (k, v)).Perm
      ((k, v) :: without k c.pairs) := by
  rw [pairs, without_append] at hroom ⊢
  have hoften : (without k c.often).length < c.size := by
    rw [List.length_append] at hroom
    omega
  rw [append_of_lt _ hoften, ← List.append_assoc]
  exact List.perm_append_singleton _ _

/-- Asking for a key drops nothing if there is room for all pairs. -/
theorem perm_get {c : Cache α} (k : Text) (hn : c.keys.Nodup) (hroom : c.pairs.length ≤ c.size) :
    (c.get k).2.pairs.Perm c.pairs := by
  have use {v : α} (hv : (k, v) ∈ c.pairs) :
      (without k c.once ++ append c.size (without k c.often) (k, v)).Perm c.pairs := by
    have hperm : ((k, v) :: without k c.pairs).Perm c.pairs := perm_without hn hv
    have hlen := hperm.length_eq
    rw [List.length_cons] at hlen
    exact (perm_use v (by omega)).trans hperm
  rw [get]
  cases h₁ : c.once.lookup k with
  | some v => exact use (List.mem_append_left _ (mem_of_lookup h₁))
  | none =>
    cases h₂ : c.often.lookup k with
    | some v =>
      have := use (List.mem_append_right _ (mem_of_lookup h₂))
      rwa [without_eq_self (ne_of_lookup_eq_none h₁)] at this
    | none => exact .refl _

/-! ### Adding a value -/

theorem makeRoom_size (c : Cache α) (back : Bool) : (c.makeRoom back).size = c.size := by
  unfold makeRoom
  dsimp only
  split <;> split <;> rfl

theorem mem_pairs_makeRoom {c : Cache α} {back : Bool} {e : Text × α}
    (h : e ∈ (c.makeRoom back).pairs) : e ∈ c.pairs := by
  unfold makeRoom at h
  dsimp only at h
  split at h <;> split at h
  · exact h
  · rename_i ho
    simp only [pairs, ho, List.cons_append]
    exact List.mem_cons_of_mem _ h
  · exact h
  · rename_i ho
    simp only [pairs, ho, List.mem_append, List.mem_cons] at h ⊢
    tauto

theorem roomy_size (c : Cache α) (back : Bool) : (c.roomy back).size = c.size := by
  unfold roomy
  split
  · exact makeRoom_size c back
  · rfl

theorem mem_pairs_roomy {c : Cache α} {back : Bool} {e : Text × α} (h : e ∈ (c.roomy back).pairs) :
    e ∈ c.pairs := by
  unfold roomy at h
  split at h
  · exact mem_pairs_makeRoom h
  · exact h

theorem roomy_of_lt {c : Cache α} {back : Bool} (h : c.pairs.length < c.size) :
    c.roomy back = c := by
  rw [pairs, List.length_append] at h
  rw [roomy, if_neg (Nat.not_le.2 h)]

/-- Making room for a new key: nothing is lost if there is room, and the key is new afterwards. -/
theorem roomy_of_new {c : Cache α} {k : Text} (d : Cache α) (back : Bool)
    (new : ∀ e ∈ c.pairs, e.1 ≠ k) (hs : d.size = c.size) (hp : d.pairs = c.pairs) :
    (d.roomy back).size = c.size ∧ (∀ e ∈ (d.roomy back).pairs, e ∈ c.pairs) ∧
      ((without k c.pairs).length < c.size → (d.roomy back).pairs = c.pairs) ∧
      without k (d.roomy back).once = (d.roomy back).once ∧
      without k (d.roomy back).often = (d.roomy back).often := by
  have sub : ∀ e ∈ (d.roomy back).pairs, e ∈ c.pairs := fun e he => hp ▸ mem_pairs_roomy he
  refine ⟨(roomy_size d back).trans hs, sub, fun hlt => ?_, ?_, ?_⟩
  · rw [without_eq_self new, ← hs, ← hp] at hlt
    rw [roomy_of_lt hlt, hp]
  · exact without_eq_self fun e he => new e (sub e (List.mem_append_left _ he))
  · exact without_eq_self fun e he => new e (sub e (List.mem_append_right _ he))

/-- What adding does: room is made in the cache if need be, and the pair is put behind those that
were used once or behind those that were used again, with no other pair of its key beside it. -/
theorem exists_add (c : Cache α) (k : Text) (v : α) :
    ∃ d : Cache α, d.size = c.size ∧ (∀ e ∈ d.pairs, e ∈ c.pairs) ∧
      ((without k c.pairs).length < c.size → d.pairs = c.pairs) ∧
      ((c.add k v).pairs = without k d.once ++ append d.size (without k d.often) (k, v) ∨
        (c.add k v).pairs = append d.size (without k d.once) (k, v) ++ without k d.often) := by
  unfold add
  split
  · exact ⟨c, rfl, fun _ h => h, fun _ => rfl, .inl rfl⟩
  rename_i h₁
  have once := ne_of_lookup_eq_none (Option.not_isSome_iff_eq_none.1 h₁)
  split
  · refine ⟨c, rfl, fun _ h => h, fun _ => rfl, .inl ?_⟩
    rw [without_eq_self once]
    rfl
  rename_i h₂
  have often := ne_of_lookup_eq_none (Option.not_isSome_iff_eq_none.1 h₂)
  have new : ∀ e ∈ c.pairs, e.1 ≠ k := List.forall_mem_append.2 ⟨once, often⟩
  split
  · let d : Cache α :=
      { c with aim := min c.size (c.aim + shift c.onceGone.length c.oftenGone.length) }
    obtain ⟨hs, hsub, hroom, honce, -⟩ := roomy_of_new d false new rfl rfl
    exact ⟨d.roomy false, hs, hsub, hroom, .inl (by rw [honce]; rfl)⟩
  split
  · let d : Cache α := { c with aim := c.aim - shift c.oftenGone.length c.onceGone.length }
    obtain ⟨hs, hsub, hroom, honce, -⟩ := roomy_of_new d true new rfl rfl
    exact ⟨d.roomy true, hs, hsub, hroom, .inl (by rw [honce]; rfl)⟩
  · obtain ⟨hs, hsub, hroom, honce, hoften⟩ := roomy_of_new c false new rfl rfl
    exact ⟨c.roomy false, hs, hsub, hroom, .inr (by rw [honce, hoften]; rfl)⟩

theorem add_size (c : Cache α) (k : Text) (v : α) : (c.add k v).size = c.size := by
  unfold add
  split_ifs <;> simp [roomy_size]

/-- A cache to which a value was added has no other value with its key. -/
theorem mem_pairs_add {c : Cache α} {k : Text} {v : α} {e : Text × α} (h : e ∈ (c.add k v).pairs) :
    e = (k, v) ∨ e ∈ c.pairs ∧ e.1 ≠ k := by
  obtain ⟨d, -, hsub, -, hadd⟩ := exists_add c k v
  have old (h : e ∈ without k d.once ∨ e ∈ without k d.often) : e ∈ c.pairs ∧ e.1 ≠ k := by
    rcases h with h | h
    · exact ⟨hsub e (List.mem_append_left _ (mem_without.1 h).1), (mem_without.1 h).2⟩
    · exact ⟨hsub e (List.mem_append_right _ (mem_without.1 h).1), (mem_without.1 h).2⟩
  rcases hadd with hadd | hadd <;> rw [hadd] at h <;> rcases List.mem_append.1 h with h | h
  · exact .inr (old (.inl h))
  · exact (mem_append h).elim (fun h => .inr (old (.inr h))) .inl
  · exact (mem_append h).elim (fun h => .inr (old (.inl h))) .inl
  · exact .inr (old (.inr h))

/-- Adding a value drops no other pair while there is room. -/
theorem perm_add {c : Cache α} {k : Text} (v : α) (hroom : (without k c.pairs).length < c.size) :
    (c.add k v).pairs.Perm ((k, v) :: without k c.pairs) := by
  obtain ⟨d, hs, -, hkept, hadd⟩ := exists_add c k v
  have hp := hkept hroom
  rw [← hp, ← hs] at hroom
  rw [← hp]
  rcases hadd with hadd | hadd <;> rw [hadd]
  · exact perm_use v hroom
  · rw [pairs, without_append] at hroom ⊢
    have honce : (without k d.once).length < d.size := by
      rw [List.length_append] at hroom
      omega
    rw [append_of_lt _ honce, List.append_assoc]
    exact List.perm_middle

/-! ### The values last added -/

section Last

variable {c : Cache α} {last : Text → Option α}

/-- The cache holds no value but the one last added with its key. -/
def Faithful (c : Cache α) (last : Text → Option α) : Prop := ∀ e ∈ c.pairs, last e.1 = some e.2

/-- The cache holds exactly the values last added with each key, and each once. -/
structure Remembers (c : Cache α) (last : Text → Option α) : Prop where
  nodup : c.keys.Nodup
  mem_iff : ∀ k v, (k, v) ∈ c.pairs ↔ last k = some v

theorem remembers_of_empty (h : c.pairs = []) : c.Remembers fun _ => none :=
  ⟨by simp [keys_eq, h], fun k v => by simp [h]⟩

theorem Faithful.get (h : c.Faithful last) (k : Text) : (c.get k).2.Faithful last :=
  fun e he => h e (mem_pairs_get he)

theorem Faithful.last_eq (h : c.Faithful last) {k : Text} {v : α} (hv : (c.get k).1 = some v) :
    last k = some v := by
  rw [get_fst] at hv
  exact h _ (mem_of_lookup hv)

theorem Faithful.add (h : c.Faithful last) (k : Text) (v : α) :
    (c.add k v).Faithful (Function.update last k (some v)) := by
  intro e he
  rcases mem_pairs_add he with rfl | ⟨he, hk⟩
  · exact Function.update_self ..
  · rw [Function.update_of_ne hk]
    exact h e he

theorem Remembers.get_eq (h : c.Remembers last) (k : Text) : (c.get k).1 = last k := by
  rw [get_fst]
  cases hl : c.pairs.lookup k with
  | some v => exact ((h.mem_iff k v).1 (mem_of_lookup hl)).symm
  | none =>
    cases hk : last k with
    | none => rfl
    | some v => exact absurd rfl (ne_of_lookup_eq_none hl _ ((h.mem_iff k v).2 hk))

theorem Remembers.get (h : c.Remembers last) (k : Text) (hroom : c.pairs.length ≤ c.size) :
    (c.get k).2.Remembers last := by
  have hperm := perm_get k h.nodup hroom
  refine ⟨(hperm.map Prod.fst).nodup_iff.2 h.nodup, fun k v => ?_⟩
  rw [hperm.mem_iff]
  exact h.mem_iff k v

theorem nodup_cons_without (k : Text) (h : c.keys.Nodup) :
    (k :: (without k c.pairs).map Prod.fst).Nodup := by
  refine List.nodup_cons.2 ⟨fun hk => ?_, h.sublist (List.filter_sublist.map Prod.fst)⟩
  obtain ⟨e, he, rfl⟩ := List.mem_map.1 hk
  exact (mem_without.1 he).2 rfl

theorem Remembers.add (h : c.Remembers last) (k : Text) (v : α)
    (hroom : (without k c.pairs).length < c.size) :
    (c.add k v).Remembers (Function.update last k (some v)) := by
  have hperm := perm_add v hroom
  refine ⟨(hperm.map Prod.fst).nodup_iff.2 (nodup_cons_without k h.nodup), fun k' v' => ?_⟩
  rw [hperm.mem_iff, List.mem_cons, mem_without, h.mem_iff]
  by_cases hk : k' = k
  · subst hk
    simp [eq_comm]
  · simp [hk]

theorem length_le_dedup {l ks : List Text} (hl : l.Nodup) (h : l ⊆ ks) :
    l.length ≤ ks.dedup.length :=
  (hl.subperm fun _ hk => List.mem_dedup.2 (h hk)).length_le

theorem Remembers.keys_subset (h : c.Remembers last) {ks : List Text}
    (hks : ∀ k, last k ≠ none → k ∈ ks) : c.keys ⊆ ks := by
  intro k hk
  obtain ⟨⟨k, v⟩, he, rfl⟩ := List.mem_map.1 hk
  exact hks k (by simp [(h.mem_iff k v).1 he])

/-- A cache has no more pairs than there are keys to which values were added. -/
theorem Remembers.length_le (h : c.Remembers last) {ks : List Text}
    (hks : ∀ k, last k ≠ none → k ∈ ks) : c.pairs.length ≤ ks.dedup.length := by
  have := length_le_dedup h.nodup (h.keys_subset hks)
  rwa [keys_eq, List.length_map] at this

/-- There is room for one of these keys besides the others. -/
theorem Remembers.length_without_lt (h : c.Remembers last) {ks : List Text} {k : Text}
    (hks : ∀ k, last k ≠ none → k ∈ ks) (hk : k ∈ ks) :
    (without k c.pairs).length < ks.dedup.length := by
  have hsub : (k :: (without k c.pairs).map Prod.fst) ⊆ ks := by
    refine List.cons_subset.2 ⟨hk, fun k' hk' => h.keys_subset hks ?_⟩
    exact (List.filter_sublist.map Prod.fst).subset hk'
  have := length_le_dedup (nodup_cons_without k h.nodup) hsub
  rwa [List.length_cons, List.length_map] at this

end Last

end Scriptlet.Cache
