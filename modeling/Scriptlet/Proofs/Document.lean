import Mathlib.Tactic.SplitIfs
import Scriptlet.Proofs.Lookup
import Scriptlet.Toml.Document

/-!
# What a document holds

The entries of a TOML text say which keys get which values: a pair belongs to the table of the last
header above it (`assignments`). A document is put together entry by entry. What it holds in its
tables are these values, each key once, unless there are tables in arrays (`valueIn?_of_foldlM`);
and an array never goes away again (`Fields.Grows`).
-/

namespace Scriptlet

/-- A run over a list that succeeds takes a first step that does. -/
theorem exists_of_foldlM_cons {ε σ α : Type} {f : σ → α → Except ε σ} {s s' : σ} {a : α}
    {l : List α} (h : (a :: l).foldlM f s = .ok s') :
    ∃ s₁, f s a = .ok s₁ ∧ l.foldlM f s₁ = .ok s' := by
  rw [List.foldlM_cons] at h
  cases hf : f s a with
  | error e =>
    rw [hf] at h
    cases h
  | ok s₁ =>
    rw [hf] at h
    exact ⟨s₁, rfl, h⟩

/-- A step whose result is only put in its place succeeds if the step does. -/
theorem exists_of_map_eq_ok {ε α β : Type} {m : Except ε α} {f : α → β} {b : β}
    (h : (do let a ← m; return f a : Except ε β) = .ok b) : ∃ a, m = .ok a ∧ f a = b := by
  cases m with
  | error e => cases h
  | ok a => exact ⟨a, rfl, Except.ok.inj h⟩

namespace Toml

/-- The pairs of the entries, each with the path of its table, where `current` is the path at the
start. -/
def assignments (current : List Text) : List Entry → List (List Text × Text × Value)
  | [] => []
  | .pair _ k v :: es => (current, k, v) :: assignments current es
  | .opening _ k :: es => assignments (current ++ [k]) es
  | .openingElement _ k :: es => assignments (current ++ [k]) es
  | .closing :: es => assignments current.dropLast es
  | .table _ _ path :: es => assignments path es
  | .element _ _ path :: es => assignments path es
  | .unreadable _ :: es => assignments current es

namespace Fields

/-! ### Views of the fields -/

/-- The value of a key. -/
def value? (fs : Fields) (k : Text) : Option Value :=
  match fs.get? k with
  | some (.value _ v) => some v
  | _ => none

/-- The fields of the table under a key; none if there is no table. -/
def inner (fs : Fields) (k : Text) : Fields :=
  match fs.get? k with
  | some (.table _ _ inner) => inner
  | _ => []

/-- The value of a key in the table under the key `g`. -/
def valueIn? (fs : Fields) (g k : Text) : Option Value := (fs.inner g).value? k

/-- There are tables in an array under the key. -/
def HasTables (fs : Fields) (k : Text) : Prop :=
  ∃ line elements, fs.get? k = some (.tables line elements)

/-- No key stands twice. -/
def Distinct (fs : Fields) : Prop := (fs.map Prod.fst).Nodup

section

variable {fs : Fields} {k : Text}

theorem get?_put (k : Text) (i : Item) (fs : Fields) (k' : Text) :
    get? (put k i fs) k' = if k' = k then some i else fs.get? k' := by
  induction fs with
  | nil => exact lookup_cons_eq k' k i []
  | cons f fs ih =>
    obtain ⟨m, j⟩ := f
    rw [get?] at ih ⊢
    rw [get?, put]
    by_cases hm : m = k
    · rw [if_pos hm, lookup_cons_eq, lookup_cons_eq, hm]
      split_ifs <;> rfl
    · rw [if_neg hm, lookup_cons_eq, ih, lookup_cons_eq]
      split_ifs with h h' h'
      · exact absurd (h.symm.trans h') hm
      · rfl
      · rfl
      · rfl

theorem get?_put_self (k : Text) (i : Item) (fs : Fields) : get? (put k i fs) k = some i := by
  rw [get?_put, if_pos rfl]

theorem get?_put_of_ne {k' : Text} (h : k' ≠ k) (i : Item) (fs : Fields) :
    get? (put k i fs) k' = fs.get? k' := by
  rw [get?_put, if_neg h]

theorem get?_cons_self (k : Text) (i : Item) (fs : Fields) : get? ((k, i) :: fs) k = some i :=
  List.lookup_cons_self

theorem get?_cons_of_ne {k' : Text} (h : k' ≠ k) (i : Item) (fs : Fields) :
    get? ((k, i) :: fs) k' = fs.get? k' := by
  rw [get?, lookup_cons_eq, if_neg h]
  rfl

theorem mem_keys_put {k' : Text} {i : Item} :
    k' ∈ (put k i fs).map Prod.fst ↔ k' = k ∨ k' ∈ fs.map Prod.fst := by
  induction fs with
  | nil => simp [put]
  | cons f fs ih =>
    obtain ⟨m, j⟩ := f
    rw [put]
    split_ifs with hm
    · simp [hm]
    · rw [List.map_cons, List.mem_cons, ih, List.map_cons, List.mem_cons]
      tauto

theorem Distinct.put (h : fs.Distinct) (k : Text) (i : Item) : Distinct (put k i fs) := by
  induction fs with
  | nil => exact List.nodup_singleton k
  | cons f fs ih =>
    obtain ⟨m, j⟩ := f
    rw [Distinct, List.map_cons, List.nodup_cons] at h
    rw [Fields.put, Distinct]
    split_ifs with hm
    · rw [List.map_cons, List.nodup_cons, ← hm]
      exact h
    · rw [List.map_cons, List.nodup_cons, mem_keys_put, not_or]
      exact ⟨⟨hm, h.1⟩, ih h.2⟩

end

/-! ### One change -/

/-- No key is lost that stands for tables in an array, and no key comes to stand twice. -/
structure Grows (fs fs' : Fields) : Prop where
  tables : ∀ k, fs.HasTables k → fs'.HasTables k
  distinct : fs.Distinct → fs'.Distinct

/-- All keys keep their values, and no key gets one. -/
structure Keeps (fs fs' : Fields) : Prop extends Grows fs fs' where
  value : fs'.value? = fs.value?

section

variable {fs fs' : Fields} {k : Text}

theorem Grows.refl (fs : Fields) : Grows fs fs := ⟨fun _ h => h, fun h => h⟩

theorem Keeps.refl (fs : Fields) : Keeps fs fs := ⟨.refl fs, rfl⟩

theorem grows_put {i : Item} (h : fs.HasTables k → ∃ line elements, i = .tables line elements) :
    Grows fs (put k i fs) where
  tables k' hk' := by
    by_cases hk : k' = k
    · subst hk
      obtain ⟨line, elements, rfl⟩ := h hk'
      exact ⟨line, elements, get?_put_self k' _ fs⟩
    · rw [HasTables, get?_put_of_ne hk]
      exact hk'
  distinct hd := hd.put k i

theorem keeps_put {i : Item} (h : fs.HasTables k → ∃ line elements, i = .tables line elements)
    (hvalue : fs.value? k = none) (hi : ∀ line v, i ≠ .value line v) : Keeps fs (put k i fs) where
  toGrows := grows_put h
  value := by
    funext k'
    by_cases hk : k' = k
    · subst hk
      rw [hvalue, value?, get?_put_self]
      split
      · rename_i line v heq
        exact absurd (Option.some.inj heq) (hi line v)
      · rfl
    · rw [value?, value?, get?_put_of_ne hk]

theorem addPair_eq_ok {line : Nat} {v : Value} (h : addPair line k v fs = .ok fs') :
    fs.get? k = none ∧ fs' = put k (.value line v) fs := by
  rw [addPair] at h
  split at h
  · rename_i hk
    exact ⟨hk, (Except.ok.inj h).symm⟩
  · cases h
  · cases h
  · cases h

theorem grows_addPair {line : Nat} {v : Value} (h : addPair line k v fs = .ok fs') :
    Grows fs fs' := by
  obtain ⟨hk, rfl⟩ := addPair_eq_ok h
  apply grows_put
  rintro ⟨l, elements, htables⟩
  cases hk.symm.trans htables

theorem value?_addPair {line : Nat} {v : Value} (h : addPair line k v fs = .ok fs') (k' : Text) :
    fs.value? k = none ∧ fs'.value? k' = if k' = k then some v else fs.value? k' := by
  obtain ⟨hk, rfl⟩ := addPair_eq_ok h
  refine ⟨by rw [value?, hk], ?_⟩
  rw [value?, get?_put]
  split_ifs
  · rfl
  · rfl

/-- A header changes what one key stands for: no value, before and after, and the same table. -/
theorem addTable_eq_ok {headed : Bool} {line : Nat} {name : Text}
    (h : addTable headed line name k fs = .ok fs') :
    ¬ fs.HasTables k ∧ fs.value? k = none ∧ fs' = put k (.table line headed (fs.inner k)) fs := by
  rw [addTable] at h
  split at h
  · rename_i hk
    rw [HasTables, value?, inner, hk]
    exact ⟨by simp, rfl, (Except.ok.inj h).symm⟩
  · rename_i first hadHeader fields hk
    rw [HasTables, value?, inner, hk]
    split_ifs at h
    exact ⟨by simp, rfl, (Except.ok.inj h).symm⟩
  · cases h
  · cases h

theorem addElement_eq_ok {line : Nat} {name : Text} (h : addElement line name k fs = .ok fs') :
    fs.value? k = none ∧ fs.inner k = [] ∧
      ∃ first elements, fs' = put k (.tables first elements) fs := by
  rw [addElement] at h
  split at h
  · rename_i hk
    rw [value?, inner, hk]
    exact ⟨rfl, rfl, line, _, (Except.ok.inj h).symm⟩
  · rename_i first elements hk
    rw [value?, inner, hk]
    exact ⟨rfl, rfl, first, _, (Except.ok.inj h).symm⟩
  · cases h
  · cases h

theorem keeps_addTable {headed : Bool} {line : Nat} {name : Text}
    (h : addTable headed line name k fs = .ok fs') : Keeps fs fs' := by
  obtain ⟨htables, hvalue, rfl⟩ := addTable_eq_ok h
  exact keeps_put (fun h => absurd h htables) hvalue (by simp)

theorem keeps_addElement {line : Nat} {name : Text} (h : addElement line name k fs = .ok fs') :
    Keeps fs fs' := by
  obtain ⟨hvalue, -, first, elements, rfl⟩ := addElement_eq_ok h
  exact keeps_put (fun _ => ⟨first, elements, rfl⟩) hvalue (by simp)

theorem inner_put (k : Text) (i : Item) (fs : Fields) (g : Text) :
    (put k i fs).inner g = if g = k then (match i with | .table _ _ fields => fields | _ => [])
      else fs.inner g := by
  rw [inner, get?_put]
  split_ifs
  · cases i <;> rfl
  · rfl

/-- One more entry at the top leaves the tables as they are. -/
theorem inner_addPair {line : Nat} {v : Value} (h : addPair line k v fs = .ok fs') :
    fs'.inner = fs.inner := by
  obtain ⟨hk, rfl⟩ := addPair_eq_ok h
  funext g
  rw [inner_put]
  split_ifs with hg
  · rw [hg, inner, hk]
  · rfl

theorem inner_addTable {headed : Bool} {line : Nat} {name : Text}
    (h : addTable headed line name k fs = .ok fs') : fs'.inner = fs.inner := by
  obtain ⟨-, -, rfl⟩ := addTable_eq_ok h
  funext g
  rw [inner_put]
  split_ifs with hg
  · rw [hg]
  · rfl

theorem inner_addElement {line : Nat} {name : Text} (h : addElement line name k fs = .ok fs') :
    fs'.inner = fs.inner := by
  obtain ⟨-, hinner, first, elements, rfl⟩ := addElement_eq_ok h
  funext g
  rw [inner_put]
  split_ifs with hg
  · rw [hg, hinner]
  · rfl

end

/-! ### A change further in -/

section

variable {line : Nat} {f : Fields → Except Conflict Fields} {fs fs' : Fields}

/-- What happens on the way to a table: the table under the first key is changed, made if it is not
there; or there are tables in an array. -/
theorem modify_cons_cases {k : Text} {ks : List Text} (h : modify line f (k :: ks) fs = .ok fs') :
    fs.value? k = none ∧
      ((¬ fs.HasTables k ∧ ∃ l headed fields, modify line f ks (fs.inner k) = .ok fields ∧
          fs' = put k (.table l headed fields) fs) ∨
        fs.HasTables k ∧ (fs' = fs ∨ ∃ l elements, fs' = put k (.tables l elements) fs)) := by
  rw [modify] at h
  split at h
  · rename_i hk
    rw [value?, HasTables, inner, hk]
    obtain ⟨fields, hm, rfl⟩ := exists_of_map_eq_ok h
    exact ⟨rfl, .inl ⟨by simp, line, false, fields, hm, rfl⟩⟩
  · rename_i l headed fields hk
    rw [value?, HasTables, inner, hk]
    obtain ⟨fields', hm, rfl⟩ := exists_of_map_eq_ok h
    exact ⟨rfl, .inl ⟨by simp, l, headed, fields', hm, rfl⟩⟩
  · rename_i l elements hk
    refine ⟨by rw [value?, hk], .inr ⟨⟨l, elements, hk⟩, ?_⟩⟩
    cases elements with
    | nil => exact .inl (Except.ok.inj h).symm
    | cons fields others =>
      obtain ⟨fields', -, rfl⟩ := exists_of_map_eq_ok h
      exact .inr ⟨l, fields' :: others, rfl⟩
  · cases h

theorem keeps_modify_cons {k : Text} {ks : List Text} (h : modify line f (k :: ks) fs = .ok fs') :
    Keeps fs fs' := by
  obtain ⟨hvalue, ⟨htables, l, headed, fields, -, rfl⟩ | ⟨-, rfl | ⟨l, elements, rfl⟩⟩⟩ :=
    modify_cons_cases h
  · exact keeps_put (fun h => absurd h htables) hvalue (by simp)
  · exact .refl _
  · exact keeps_put (fun _ => ⟨l, elements, rfl⟩) hvalue (by simp)

theorem grows_modify (hf : ∀ {fs fs'}, f fs = .ok fs' → Grows fs fs') {path : List Text}
    (h : modify line f path fs = .ok fs') : Grows fs fs' := by
  cases path with
  | nil => exact hf h
  | cons k ks => exact (keeps_modify_cons h).toGrows

/-- Where there are no tables in arrays, a change is made to the table under the first key of its
path, and the other tables stay. -/
theorem inner_modify (hf : ∀ {fs fs'}, f fs = .ok fs' → fs'.inner = fs.inner) {path : List Text}
    (h : modify line f path fs = .ok fs') (htables : ∀ k, ¬ fs'.HasTables k) (g : Text) :
    (∃ ks, path = g :: ks ∧ modify line f ks (fs.inner g) = .ok (fs'.inner g)) ∨
      (∀ ks, path ≠ g :: ks) ∧ fs'.inner g = fs.inner g := by
  cases path with
  | nil => exact .inr ⟨by simp, by rw [hf h]⟩
  | cons k ks =>
    have hgrows := (keeps_modify_cons h).toGrows
    obtain ⟨-, ⟨-, l, headed, fields, hfields, rfl⟩ | ⟨hk, -⟩⟩ := modify_cons_cases h
    · by_cases hg : g = k
      · subst hg
        refine .inl ⟨ks, rfl, ?_⟩
        rw [inner_put, if_pos rfl]
        exact hfields
      · refine .inr ⟨fun _ heq => hg (List.cons.inj heq).1.symm, ?_⟩
        rw [inner_put, if_neg hg]
    · exact absurd (hgrows.tables k hk) (htables k)

/-- Tables stay distinct inside. -/
theorem distinct_inner_modify (hgrows : ∀ {fs fs'}, f fs = .ok fs' → Grows fs fs')
    (hinner : ∀ {fs fs'}, f fs = .ok fs' → fs'.inner = fs.inner) {path : List Text}
    (h : modify line f path fs = .ok fs') (htables : ∀ k, ¬ fs'.HasTables k) {g : Text}
    (hg : (fs.inner g).Distinct) : (fs'.inner g).Distinct := by
  rcases inner_modify hinner h htables g with ⟨ks, -, hks⟩ | ⟨-, heq⟩
  · exact (grows_modify hgrows hks).distinct hg
  · rwa [heq]

/-- A header gives no key a value. -/
theorem valueIn?_modify (hkeeps : ∀ {fs fs'}, f fs = .ok fs' → Keeps fs fs')
    (hinner : ∀ {fs fs'}, f fs = .ok fs' → fs'.inner = fs.inner) {path : List Text}
    (h : modify line f path fs = .ok fs') (htables : ∀ k, ¬ fs'.HasTables k) (g k : Text) :
    fs'.valueIn? g k = fs.valueIn? g k := by
  rw [valueIn?, valueIn?]
  rcases inner_modify hinner h htables g with ⟨ks, -, hks⟩ | ⟨-, heq⟩
  · cases ks with
    | nil => rw [(hkeeps hks).value]
    | cons k' ks => rw [(keeps_modify_cons hks).value]
  · rw [heq]

/-- A pair gives its key a value, in the table with its path, and no key had two. -/
theorem valueIn?_modify_addPair {k : Text} {v : Value} {path : List Text}
    (h : modify line (addPair line k v) path fs = .ok fs') (htables : ∀ k, ¬ fs'.HasTables k)
    (g k' : Text) : (path = [g] → fs.valueIn? g k = none) ∧
      fs'.valueIn? g k' = if path = [g] ∧ k' = k then some v else fs.valueIn? g k' := by
  rw [valueIn?, valueIn?]
  rcases inner_modify inner_addPair h htables g with ⟨ks, rfl, hks⟩ | ⟨hpath, heq⟩
  · cases ks with
    | nil =>
      obtain ⟨hnone, hvalue⟩ := value?_addPair hks k'
      exact ⟨fun _ => hnone, by simpa [valueIn?] using hvalue⟩
    | cons c ks =>
      rw [(keeps_modify_cons hks).value]
      exact ⟨fun h => absurd h (by simp), by simp [valueIn?]⟩
  · rw [heq, if_neg fun h => hpath [] h.1]
    exact ⟨fun h => absurd h (hpath []), rfl⟩

end

end Fields

/-! ### Entry by entry -/

namespace Document

open Fields

variable {d d' : Document}

/-- No key stands twice, at the top or in a table. -/
structure Distinct (d : Document) : Prop where
  keys : d.fields.Distinct
  inner : ∀ g, (d.fields.inner g).Distinct

/-- What an entry does to a document: a pair is added to the current table, or another table becomes
the current one. -/
theorem add_cases {e : Entry} (h : d.add e = .ok d') :
    (∃ line k v, e = .pair line k v ∧
      modify line (addPair line k v) d.current d.fields = .ok d'.fields ∧
      d'.current = d.current) ∨
    ∃ line f path, (∀ {fs fs'}, f fs = .ok fs' → Keeps fs fs') ∧
      (∀ {fs fs' : Fields}, f fs = .ok fs' → fs'.inner = fs.inner) ∧
      modify line f path d.fields = .ok d'.fields ∧
      ∀ es, assignments d.current (e :: es) = assignments d'.current es := by
  cases e with
  | unreadable line => cases h
  | pair line k v =>
    obtain ⟨fs, hm, rfl⟩ := exists_of_map_eq_ok h
    exact .inl ⟨line, k, v, rfl, hm, rfl⟩
  | opening line k =>
    obtain ⟨fs, hm, rfl⟩ := exists_of_map_eq_ok h
    exact .inr ⟨line, _, _, keeps_addTable, inner_addTable, hm, fun _ => rfl⟩
  | openingElement line k =>
    obtain ⟨fs, hm, rfl⟩ := exists_of_map_eq_ok h
    exact .inr ⟨line, _, _, keeps_addElement, inner_addElement, hm, fun _ => rfl⟩
  | closing =>
    obtain rfl := Except.ok.inj h
    refine .inr ⟨0, .ok, [], ?_, ?_, rfl, fun _ => rfl⟩
    · intro fs fs' hfs
      rw [Except.ok.inj hfs]
      exact .refl fs'
    · intro fs fs' hfs
      rw [Except.ok.inj hfs]
  | table line name path =>
    obtain ⟨fs, hm, rfl⟩ := exists_of_map_eq_ok h
    exact .inr ⟨line, _, _, keeps_addTable, inner_addTable, hm, fun _ => rfl⟩
  | element line name path =>
    obtain ⟨fs, hm, rfl⟩ := exists_of_map_eq_ok h
    exact .inr ⟨line, _, _, keeps_addElement, inner_addElement, hm, fun _ => rfl⟩

theorem grows_add {e : Entry} (h : d.add e = .ok d') : Grows d.fields d'.fields := by
  rcases add_cases h with ⟨line, k, v, -, hm, -⟩ | ⟨line, f, path, hkeeps, -, hm, -⟩
  · exact grows_modify grows_addPair hm
  · exact grows_modify (fun h => (hkeeps h).toGrows) hm

theorem Distinct.add {e : Entry} (hd : d.Distinct) (h : d.add e = .ok d')
    (htables : ∀ k, ¬ d'.fields.HasTables k) : d'.Distinct := by
  refine ⟨(grows_add h).distinct hd.keys, fun g => ?_⟩
  rcases add_cases h with ⟨line, k, v, -, hm, -⟩ | ⟨line, f, path, hkeeps, hinner, hm, -⟩
  · exact distinct_inner_modify grows_addPair inner_addPair hm htables (hd.inner g)
  · exact distinct_inner_modify (fun h => (hkeeps h).toGrows) hinner hm htables (hd.inner g)

/-- The document holds what it held, and what the entry assigns. -/
theorem valueIn?_add {e : Entry} (h : d.add e = .ok d') (htables : ∀ k, ¬ d'.fields.HasTables k)
    (es : List Entry) (g k : Text) (v : Value) :
    (d'.fields.valueIn? g k = some v ∨ ([g], k, v) ∈ assignments d'.current es) ↔
      (d.fields.valueIn? g k = some v ∨ ([g], k, v) ∈ assignments d.current (e :: es)) := by
  rcases add_cases h with
    ⟨line, k', v', rfl, hm, hcurrent⟩ | ⟨line, f, path, hkeeps, hinner, hm, hassign⟩
  · obtain ⟨hnone, hvalue⟩ := valueIn?_modify_addPair hm htables g k
    rw [hvalue, hcurrent, assignments, List.mem_cons, Prod.mk.injEq, Prod.mk.injEq]
    by_cases hnew : d.current = [g] ∧ k = k'
    · obtain ⟨hpath, rfl⟩ := hnew
      rw [if_pos ⟨hpath, rfl⟩, hnone hpath, hpath, Option.some_inj]
      simp [eq_comm]
    · have hold : ¬ ([g] = d.current ∧ k = k' ∧ v = v') := fun h => hnew ⟨h.1.symm, h.2.1⟩
      rw [if_neg hnew]
      simp [hold]
  · rw [hassign, valueIn?_modify hkeeps hinner hm htables]

theorem grows_foldlM {es : List Entry} (h : es.foldlM Document.add d = .ok d') :
    Grows d.fields d'.fields := by
  induction es generalizing d with
  | nil =>
    obtain rfl := Except.ok.inj h
    exact .refl _
  | cons e es ih =>
    obtain ⟨d₁, hadd, hrest⟩ := exists_of_foldlM_cons h
    have hfirst := grows_add hadd
    have hlast := ih hrest
    exact ⟨fun k hk => hlast.tables k (hfirst.tables k hk),
      fun hd => hlast.distinct (hfirst.distinct hd)⟩

/-- **A document without tables in arrays holds what its entries assign.** -/
theorem valueIn?_of_foldlM {es : List Entry} (h : es.foldlM Document.add d = .ok d')
    (htables : ∀ k, ¬ d'.fields.HasTables k) (hd : d.Distinct) :
    d'.Distinct ∧ ∀ g k v, d'.fields.valueIn? g k = some v ↔
      d.fields.valueIn? g k = some v ∨ ([g], k, v) ∈ assignments d.current es := by
  induction es generalizing d with
  | nil =>
    obtain rfl := Except.ok.inj h
    exact ⟨hd, fun g k v => by simp [assignments]⟩
  | cons e es ih =>
    obtain ⟨d₁, hadd, hrest⟩ := exists_of_foldlM_cons h
    -- an array that is there now would be there in the end
    have htables₁ (k : Text) : ¬ d₁.fields.HasTables k :=
        fun hk => htables k ((grows_foldlM hrest).tables k hk)
    obtain ⟨hdistinct, hvalue⟩ := ih hrest (hd.add hadd htables₁)
    exact ⟨hdistinct, fun g k v => (hvalue g k v).trans (valueIn?_add hadd htables₁ es g k v)⟩

end Document

/-- The fields that entries make, if there are no tables in arrays among them. -/
theorem Fields.valueIn?_ofEntries {es : List Entry} {fs : Fields} (h : Fields.ofEntries es = .ok fs)
    (htables : ∀ k, ¬ fs.HasTables k) :
    fs.Distinct ∧ (∀ g, (fs.inner g).Distinct) ∧
      ∀ g k v, fs.valueIn? g k = some v ↔ ([g], k, v) ∈ assignments [] es := by
  rw [ofEntries] at h
  cases hfold : es.foldlM Document.add ⟨[], []⟩ with
  | error c =>
    rw [hfold] at h
    cases h
  | ok d =>
    rw [hfold] at h
    obtain rfl := Except.ok.inj h
    obtain ⟨hdistinct, hvalue⟩ :=
      Document.valueIn?_of_foldlM hfold htables ⟨List.nodup_nil, fun _ => List.nodup_nil⟩
    refine ⟨hdistinct.keys, hdistinct.inner, fun g k v => ?_⟩
    rw [hvalue, or_iff_right]
    intro hempty
    cases hempty

end Toml

end Scriptlet
