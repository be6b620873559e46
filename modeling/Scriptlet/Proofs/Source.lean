import Mathlib.Data.List.GetD
import Mathlib.Tactic.Common
import Scriptlet.Source

/-!
# Lines of a source

The line index lists where the lines of a source start, in increasing order. The line of an offset
is found in it by halving: it is the last line that does not start behind the offset
(`firstBeyond_eq_of_splits`). What stands in front of a text, up to a line feed, moves its lines and
offsets and changes neither the columns nor the lines that are quoted (`position_append`,
`context_append`).
-/

namespace Scriptlet

/-! ### The line index -/

theorem startsAfter_append (o : Nat) (a b : Text) :
    startsAfter o (a ++ b) = startsAfter o a ++ startsAfter (o + a.length) b := by
  induction a generalizing o with
  | nil => rfl
  | cons c a ih =>
    simp only [List.cons_append, startsAfter, ih, List.length_cons, Nat.add_assoc, Nat.add_comm 1]
    split <;> rfl

theorem startsAfter_add (o n : Nat) (t : Text) :
    startsAfter (o + n) t = (startsAfter o t).map (· + n) := by
  induction t generalizing o with
  | nil => rfl
  | cons c t ih =>
    simp only [startsAfter, Nat.add_right_comm o n 1, ih]
    split <;> rfl

theorem length_startsAfter (o : Nat) (t : Text) :
    (startsAfter o t).length = t.count Text.lineFeed := by
  induction t generalizing o with
  | nil => rfl
  | cons c t ih =>
    rw [startsAfter, List.count_cons]
    by_cases h : c = Text.lineFeed <;> simp [h, ih]

theorem mem_startsAfter {o x : Nat} {t : Text} (h : x ∈ startsAfter o t) :
    o < x ∧ x ≤ o + t.length := by
  induction t generalizing o with
  | nil => cases h
  | cons c t ih =>
    rw [startsAfter] at h
    rw [List.length_cons]
    split at h
    · rcases List.mem_cons.1 h with rfl | h
      · omega
      · have := ih h
        omega
    · have := ih h
      omega

/-- A line starts behind every line feed, and nowhere else. -/
theorem mem_startsAfter_iff {o x : Nat} {t : Text} :
    x ∈ startsAfter o t ↔ ∃ i, t[i]? = some Text.lineFeed ∧ x = o + i + 1 := by
  induction t generalizing o with
  | nil => simp [startsAfter]
  | cons c t ih =>
    -- an index in `c :: t` is that of `c` or comes from one in `t`
    rw [← Nat.or_exists_add_one]
    simp only [List.getElem?_cons_zero, List.getElem?_cons_succ, Option.some.injEq]
    have hmore : x ∈ startsAfter (o + 1) t ↔
        ∃ i, t[i]? = some Text.lineFeed ∧ x = o + (i + 1) + 1 := by
      simp only [ih, Nat.add_assoc, Nat.add_comm 1]
    rw [startsAfter]
    split
    · rename_i hc
      rw [List.mem_cons, hmore]
      simp [hc]
    · rename_i hc
      rw [hmore]
      simp [hc]

theorem pairwise_startsAfter (o : Nat) (t : Text) : (startsAfter o t).Pairwise (· < ·) := by
  induction t generalizing o with
  | nil => exact .nil
  | cons c t ih =>
    rw [startsAfter]
    split
    · exact .cons (fun x hx => (mem_startsAfter hx).1) (ih (o + 1))
    · exact ih (o + 1)

/-- The line index is in increasing order. -/
theorem pairwise_lineStarts (t : Text) : (lineStarts t).toList.Pairwise (· < ·) :=
  .cons (fun _ hx => (mem_startsAfter hx).1) (pairwise_startsAfter 0 t)

/-- The lines of two texts with a line feed between them are those of both. -/
theorem lineStarts_append (a b : Text) :
    lineStarts (a ++ Text.lineFeed :: b) = lineStarts a ++
      (lineStarts b).map (· + (a.length + 1)) := by
  have hb := startsAfter_add 0 (a.length + 1) b
  rw [Nat.zero_add] at hb
  simp [lineStarts, startsAfter_append, startsAfter, hb]

theorem size_lineStarts (t : Text) : (lineStarts t).size = t.count Text.lineFeed + 1 := by
  simp [lineStarts, length_startsAfter]

theorem size_lineStarts_of_notMem {t : Text} (h : Text.lineFeed ∉ t) : (lineStarts t).size = 1 := by
  rw [size_lineStarts, List.count_eq_zero_of_not_mem h]

theorem size_lineStarts_append (a b : Text) :
    (lineStarts (a ++ Text.lineFeed :: b)).size = (lineStarts a).size + (lineStarts b).size := by
  simp [lineStarts_append]

theorem getD_lineStarts (t : Text) (i : Nat) :
    (lineStarts t).getD i 0 = (0 :: startsAfter 0 t).getD i 0 := by
  simp [lineStarts]

theorem getD_lineStarts_zero (t : Text) : (lineStarts t).getD 0 0 = 0 := by
  rw [getD_lineStarts, List.getD_cons_zero]

theorem getD_lineStarts_le (t : Text) (i : Nat) : (lineStarts t).getD i 0 ≤ t.length := by
  rw [getD_lineStarts]
  by_cases hi : i < (0 :: startsAfter 0 t).length
  · rw [List.getD_eq_getElem _ _ hi]
    rcases List.mem_cons.1 (List.getElem_mem hi) with h | h
    · omega
    · have := mem_startsAfter h
      omega
  · rw [List.getD_eq_default _ _ (Nat.le_of_not_lt hi)]
    exact Nat.zero_le _

theorem getD_lineStarts_mono (t : Text) {i j : Nat} (hij : i ≤ j) (hj : j < (lineStarts t).size) :
    (lineStarts t).getD i 0 ≤ (lineStarts t).getD j 0 := by
  have hj : j < (0 :: startsAfter 0 t).length := hj
  rcases Nat.eq_or_lt_of_le hij with rfl | hlt
  · exact Nat.le_refl _
  · have hi := Nat.lt_trans hlt hj
    rw [getD_lineStarts, getD_lineStarts, List.getD_eq_getElem _ _ hj, List.getD_eq_getElem _ _ hi]
    exact Nat.le_of_lt (List.pairwise_iff_getElem.1 (pairwise_lineStarts t) i j hi hj hlt)

theorem getD_lineStarts_append_left (a b : Text) {i : Nat} (hi : i < (lineStarts a).size) :
    (lineStarts (a ++ Text.lineFeed :: b)).getD i 0 = (lineStarts a).getD i 0 := by
  rw [lineStarts_append, Array.getD_eq_getD_getElem?, Array.getElem?_append_left hi,
    ← Array.getD_eq_getD_getElem?]

theorem getD_lineStarts_append_right (a b : Text) {i : Nat} (hi : i < (lineStarts b).size) :
    (lineStarts (a ++ Text.lineFeed :: b)).getD ((lineStarts a).size + i) 0 =
      (lineStarts b).getD i 0 + (a.length + 1) := by
  rw [lineStarts_append, Array.getD_eq_getD_getElem?,
    Array.getElem?_append_right (Nat.le_add_right _ _), Nat.add_sub_cancel_left,
    Array.getElem?_map, Array.getD_eq_getD_getElem?, Array.getElem?_eq_getElem hi]
  rfl

/-! ### Halving -/

/-- Before `lo` the entries are at most `o`, and from `hi` on they are beyond it. -/
structure Splits (starts : Array Nat) (o lo hi : Nat) : Prop where
  le : ∀ i < lo, starts.getD i 0 ≤ o
  lt : ∀ i, hi ≤ i → i < starts.size → o < starts.getD i 0

theorem splits_firstBeyond {starts : Array Nat}
    (hmono : ∀ i j, i ≤ j → j < starts.size → starts.getD i 0 ≤ starts.getD j 0) {o lo hi : Nat}
    (h : Splits starts o lo hi) (hle : lo ≤ hi) (hsize : hi ≤ starts.size) :
    firstBeyond starts o lo hi ≤ starts.size ∧
      Splits starts o (firstBeyond starts o lo hi) (firstBeyond starts o lo hi) := by
  fun_induction firstBeyond starts o lo hi with
  | case1 lo hi hlt mid hmid ih =>
    refine ih ⟨h.le, fun i hi hs => ?_⟩ (by omega) (by omega)
    exact Nat.lt_of_lt_of_le hmid (hmono mid i hi hs)
  | case2 lo hi hlt mid hmid ih =>
    refine ih ⟨fun i hi => ?_, h.lt⟩ (by omega) hsize
    exact Nat.le_trans (hmono i mid (by omega) (by omega)) (Nat.le_of_not_lt hmid)
  | case3 lo hi hlt =>
    obtain rfl : lo = hi := by omega
    exact ⟨hsize, h⟩

theorem Splits.unique {starts : Array Nat} {o r s : Nat} (hr : Splits starts o r r)
    (hs : Splits starts o s s) (hr' : r ≤ starts.size) (hs' : s ≤ starts.size) : r = s := by
  rcases Nat.lt_trichotomy r s with h | h | h
  · have := hr.lt r (Nat.le_refl r) (by omega)
    have := hs.le r h
    omega
  · exact h
  · have := hs.lt s (Nat.le_refl s) (by omega)
    have := hr.le s h
    omega

theorem splits_firstBeyond_lineStarts (t : Text) (o : Nat) :
    firstBeyond (lineStarts t) o 0 (lineStarts t).size ≤ (lineStarts t).size ∧
      Splits (lineStarts t) o (firstBeyond (lineStarts t) o 0 (lineStarts t).size)
        (firstBeyond (lineStarts t) o 0 (lineStarts t).size) := by
  refine splits_firstBeyond (fun i j => getD_lineStarts_mono t) ⟨fun i hi => ?_, fun i hi hs => ?_⟩
    (Nat.zero_le _) (Nat.le_refl _)
  · exact absurd hi (Nat.not_lt_zero i)
  · exact absurd hs (Nat.not_lt_of_le hi)

/-- Halving finds the place from which on the lines start behind the offset. -/
theorem firstBeyond_eq_of_splits {t : Text} {o r : Nat} (h : Splits (lineStarts t) o r r)
    (hr : r ≤ (lineStarts t).size) : firstBeyond (lineStarts t) o 0 (lineStarts t).size = r := by
  obtain ⟨hle, hs⟩ := splits_firstBeyond_lineStarts t o
  exact hs.unique h hle hr

theorem firstBeyond_pos (t : Text) (o : Nat) :
    0 < firstBeyond (lineStarts t) o 0 (lineStarts t).size := by
  obtain ⟨hle, hs⟩ := splits_firstBeyond_lineStarts t o
  refine Nat.pos_of_ne_zero fun h => ?_
  have := hs.lt 0 (Nat.le_of_eq h) (by rw [size_lineStarts]; omega)
  rw [getD_lineStarts_zero] at this
  exact absurd this (Nat.not_lt_zero o)

/-- The lines of a text in front come first. -/
theorem firstBeyond_append (a b : Text) (o : Nat) :
    firstBeyond (lineStarts (a ++ Text.lineFeed :: b)) (o + (a.length + 1)) 0
        (lineStarts (a ++ Text.lineFeed :: b)).size =
      (lineStarts a).size + firstBeyond (lineStarts b) o 0 (lineStarts b).size := by
  obtain ⟨hle, hs⟩ := splits_firstBeyond_lineStarts b o
  have hsize := size_lineStarts_append a b
  refine firstBeyond_eq_of_splits ⟨fun i hi => ?_, fun i hi hi' => ?_⟩ (by omega)
  · by_cases hia : i < (lineStarts a).size
    · rw [getD_lineStarts_append_left a b hia]
      have := getD_lineStarts_le a i
      omega
    · obtain ⟨j, rfl⟩ := Nat.exists_eq_add_of_le (Nat.le_of_not_lt hia)
      rw [getD_lineStarts_append_right a b (by omega)]
      have := hs.le j (by omega)
      omega
  · obtain ⟨j, rfl⟩ := Nat.exists_eq_add_of_le (show (lineStarts a).size ≤ i by omega)
    rw [getD_lineStarts_append_right a b (by omega)]
    have := hs.lt j (by omega) (by omega)
    omega

theorem getD_lineStarts_pos {t : Text} {i : Nat} (hi : 0 < i) (hs : i < (lineStarts t).size) :
    0 < (lineStarts t).getD i 0 := by
  obtain ⟨j, rfl⟩ := Nat.exists_eq_add_of_lt hi
  have hj : 0 + j < (startsAfter 0 t).length := by simpa [lineStarts] using hs
  rw [getD_lineStarts, List.getD_cons_succ, List.getD_eq_getElem _ _ hj]
  exact (mem_startsAfter (List.getElem_mem hj)).1

/-! ### A text in front -/

theorem drop_append_lineFeed (a b : Text) (o : Nat) :
    (a ++ Text.lineFeed :: b).drop (o + (a.length + 1)) = b.drop o := by
  rw [List.drop_append, List.drop_eq_nil_of_le (by omega), List.nil_append,
    show o + (a.length + 1) - a.length = o + 1 by omega, List.drop_succ_cons]

/-- The position, moved down by some lines and on by some bytes. -/
def Position.shift (lines bytes : Nat) (p : Position) : Position :=
  { p with line := p.line + lines, offset := p.offset + bytes }

namespace Source

variable (name a b : Text)

/-- A text in front moves a position by its lines and its bytes. -/
theorem position_append (o : Nat) :
    position ⟨name, a ++ Text.lineFeed :: b⟩ (o + (a.length + 1) : Nat) =
      (position ⟨name, b⟩ o).shift (a.count Text.lineFeed + 1) (a.length + 1) := by
  have hclamp : clamp ⟨name, a ++ Text.lineFeed :: b⟩ (o + (a.length + 1) : Nat) =
      clamp ⟨name, b⟩ o + (a.length + 1) := by
    simp only [clamp, size, Int.toNat_natCast, List.length_append, List.length_cons]
    omega
  simp only [position, positionIn, starts, hclamp, firstBeyond_append, Position.shift]
  obtain ⟨hle, -⟩ := splits_firstBeyond_lineStarts b (clamp ⟨name, b⟩ o)
  have hpos := firstBeyond_pos b (clamp ⟨name, b⟩ o)
  generalize firstBeyond (lineStarts b) (clamp ⟨name, b⟩ o) 0 (lineStarts b).size = r at hle hpos
  rw [Nat.add_sub_assoc hpos, getD_lineStarts_append_right a b (by omega), drop_append_lineFeed,
    Nat.add_sub_add_right, size_lineStarts]
  congr 1
  omega

theorem line_eq (t : Text) {n : Nat} (hn : 0 < n) :
    line ⟨name, t⟩ n = if (lineStarts t).size < n then [] else
      Text.dropEnd ((t.take (if n < (lineStarts t).size then (lineStarts t).getD n 0 - 1
        else t.length)).drop
        ((lineStarts t).getD (n - 1) 0)) [Text.carriageReturn] := by
  by_cases hlt : (lineStarts t).size < n
  · rw [if_pos hlt, line, if_pos]
    simpa [lineCount, starts] using Or.inr hlt
  · rw [if_neg hlt, line, if_neg]
    · rfl
    · have hcount : (lineStarts t).size = lineCount ⟨name, t⟩ := rfl
      rw [hcount] at hlt
      simp only [Bool.or_eq_true, decide_eq_true_eq]
      omega

/-- A text in front leaves the lines behind it as they are. -/
theorem line_append {n : Nat} (hn : 0 < n) :
    line ⟨name, a ++ Text.lineFeed :: b⟩ (n + (a.count Text.lineFeed + 1) : Nat) =
      line ⟨name, b⟩ n := by
  rw [← size_lineStarts, Nat.add_comm n, line_eq name _ (Nat.add_pos_right _ hn), line_eq name _ hn,
    size_lineStarts_append]
  by_cases hlt : (lineStarts b).size < n
  · rw [if_pos (Nat.add_lt_add_left hlt _), if_pos hlt]
  · have hstop : (if (lineStarts a).size + n < (lineStarts a).size + (lineStarts b).size then
          (lineStarts (a ++ Text.lineFeed :: b)).getD ((lineStarts a).size + n) 0 - 1
        else (a ++ Text.lineFeed :: b).length) =
        (if n < (lineStarts b).size then (lineStarts b).getD n 0 - 1 else b.length) +
          (a.length + 1) := by
      by_cases hmore : n < (lineStarts b).size
      · have := getD_lineStarts_pos hn hmore
        rw [if_pos (Nat.add_lt_add_left hmore _), if_pos hmore,
          getD_lineStarts_append_right a b hmore]
        omega
      · rw [if_neg (by omega), if_neg hmore, List.length_append, List.length_cons]
        omega
    rw [if_neg (by omega), if_neg hlt, hstop, Nat.add_sub_assoc hn,
      getD_lineStarts_append_right a b (by omega), List.drop_take, List.drop_take,
        drop_append_lineFeed,
      Nat.add_sub_add_right]

theorem context_append (o : Nat) :
    context ⟨name, a ++ Text.lineFeed :: b⟩ (o + (a.length + 1) : Nat) = context ⟨name, b⟩ o := by
  have hline : 0 < (position ⟨name, b⟩ o).line := Nat.succ_pos _
  simp only [context, position_append, Position.shift, line_append name a b hline]

end Source

end Scriptlet
