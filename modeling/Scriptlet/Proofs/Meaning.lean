import Scriptlet.Proofs.Document
import Scriptlet.Proofs.Wording

/-!
# What a settings file says

A TOML text of headers, pairs, integers, strings and inline tables, as a relation between the text
and what it assigns: each key its value, in the table whose header stands above it or in whose
braces it stands (`Says`). The relation is made of the words of `Wording` and of no reader. What is
read from a text is what it says, if all of its entries are of these kinds (`says_of_read?`).
-/

namespace Scriptlet.Toml

/-- The path of a table, a key in it, and the value that the key gets. -/
abbrev Assignment := List Text × Text × Value

/-! ### Pairs -/

/-- An integer or a string. -/
inductive ScalarAt : Value → (t rest : Text) → Prop where
  | integer {digits t rest : Text} : IntegerAt digits t rest → ScalarAt (.integer digits) t rest
  | string {s t rest : Text} : StringAt s t rest → ScalarAt (.string s) t rest

/-- Between two pairs of an inline table stands a comma, with blanks around it, or nothing. -/
inductive Parts : (t rest : Text) → Prop where
  | nothing {t : Text} : Parts t t
  | comma {v w rest : Text} : IsBlank v → IsBlank w → Parts (v ++ 44 :: (w ++ rest)) rest

mutual

/-- What is behind the sign of a pair, as the value of the key `k` of a table: an integer or a
string, or the pairs of an inline table, which is the table under the key. -/
inductive ValueAt : (path : List Text) → (k : Text) → List Assignment → (t rest : Text) → Prop where
  | scalar {path : List Text} {k : Text} {v : Value} {t rest : Text} : ScalarAt v t rest →
      ValueAt path k [(path, k, v)] t rest
  | table {path : List Text} {k : Text} {as : List Assignment} {v w t rest : Text} :
      IsBlank v → IsBlank w → PairsAt (path ++ [k]) as t (w ++ 125 :: rest) →
      ValueAt path k as (123 :: (v ++ t)) rest

/-- A key and its value. -/
inductive PairAt : (path : List Text) → List Assignment → (t rest : Text) → Prop where
  | mk {path : List Text} {k : Text} {as : List Assignment} {v w t u rest : Text} :
      IsBlank v → IsBlank w → KeyAt k t (v ++ 61 :: (w ++ u)) → ValueAt path k as u rest →
      PairAt path as t rest

/-- The pairs of an inline table. -/
inductive PairsAt : (path : List Text) → List Assignment → (t rest : Text) → Prop where
  | nil {path : List Text} {t : Text} : PairsAt path [] t t
  | cons {path : List Text} {as bs : List Assignment} {t u v rest : Text} :
      PairAt path as t u → Parts u v → PairsAt path bs v rest → PairsAt path (as ++ bs) t rest

end

/-! ### Tables and lines -/

/-- Keys divided by points. -/
inductive PathAt : List Text → (t rest : Text) → Prop where
  | last {k t rest : Text} : KeyAt k t rest → PathAt [k] t rest
  | cons {k : Text} {ks : List Text} {v w t u rest : Text} : IsBlank v → IsBlank w →
      KeyAt k t (v ++ 46 :: (w ++ u)) → PathAt ks u rest → PathAt (k :: ks) t rest

/-- The pairs that follow a header, with or without line ends between them. -/
inductive BodyAt : (path : List Text) → List Assignment → (t rest : Text) → Prop where
  | nil {path : List Text} {t : Text} : BodyAt path [] t t
  | cons {path : List Text} {as bs : List Assignment} {w t u v rest : Text} :
      IsLayout w → PairAt path as t u → Trails u v → BodyAt path bs v rest →
      BodyAt path (as ++ bs) (w ++ t) rest

/-- What stands between two line ends, where `path` is the path of the table that pairs belong to,
and `next` that of the table to which further pairs do: a header and its pairs, a pair, or
neither. -/
inductive LineAt : (path : List Text) → List Assignment → (next : List Text) →
    (t rest : Text) → Prop where
  | header {path next : List Text} {as : List Assignment} {v w x t u r rest : Text} :
      IsBlank v → IsBlank w → IsBlank x → PathAt next t (x ++ 93 :: u) → Trails u r →
      BodyAt next as r rest → LineAt path as next (v ++ 91 :: (w ++ t)) rest
  | pair {path : List Text} {as : List Assignment} {w t u rest : Text} :
      IsBlank w → PairAt path as t u → Trails u rest → LineAt path as path (w ++ t) rest
  | empty {path : List Text} {t rest : Text} : Trails t rest → LineAt path [] path t rest

/-- **What a text assigns**, line by line. -/
inductive Says : (path : List Text) → List Assignment → Text → Prop where
  | last {path next : List Text} {as : List Assignment} {t : Text} :
      LineAt path as next t [] → Says path as t
  | cons {path next : List Text} {as bs : List Assignment} {b : UInt8} {w t u : Text} :
      IsLineEnds (b :: w) → LineAt path as next t (b :: (w ++ u)) → Says next bs u →
      Says path (as ++ bs) t

/-! ### Entries -/

/-- The value is an integer or a string. -/
def Value.IsScalar : Value → Prop
  | .integer _ | .string _ => True
  | _ => False

/-- The entry is a header, a pair of a key and an integer or string, or the opening or end of an
inline table. -/
def Entry.IsPlain : Entry → Prop
  | .pair _ _ v => v.IsScalar
  | .table .. | .opening .. | .closing => True
  | _ => False

/-- The path of the current table behind an entry. -/
def Entry.pathAfter (path : List Text) : Entry → List Text
  | .opening _ k | .openingElement _ k => path ++ [k]
  | .closing => path.dropLast
  | .table _ _ p | .element _ _ p => p
  | _ => path

/-- The path of the current table behind entries. -/
def pathAfter (path : List Text) (es : List Entry) : List Text := es.foldl Entry.pathAfter path

theorem assignments_cons (path : List Text) (e : Entry) (es : List Entry) :
    assignments path (e :: es) = assignments path [e] ++ assignments (e.pathAfter path) es := by
  cases e <;> rfl

theorem assignments_append (path : List Text) (es fs : List Entry) :
    assignments path (es ++ fs) = assignments path es ++ assignments (pathAfter path es) fs := by
  induction es generalizing path with
  | nil => rfl
  | cons e es ih =>
    rw [List.cons_append, assignments_cons, ih, assignments_cons path e es, List.append_assoc]
    rfl

theorem pathAfter_append (path : List Text) (es fs : List Entry) :
    pathAfter path (es ++ fs) = pathAfter (pathAfter path es) fs := List.foldl_append

/-- Between the braces of an inline table the path is that of the table. -/
theorem assignments_inline {path : List Text} {k : Text} {es : List Entry} (line : Nat)
    (h : pathAfter (path ++ [k]) es = path ++ [k]) :
    assignments path (.opening line k :: es ++ [.closing]) = assignments (path ++ [k]) es ∧
      pathAfter path (.opening line k :: es ++ [.closing]) = path := by
  constructor
  · rw [List.cons_append, assignments, assignments_append]
    exact List.append_nil _
  · rw [pathAfter_append]
    calc pathAfter (pathAfter (path ++ [k]) es) [.closing]
      _ = (path ++ [k]).dropLast := by rw [h]; rfl
      _ = path := List.dropLast_concat

/-- The content is a value without arrays, dates and such in it. -/
def Content.IsPlain (c : Content) : Prop :=
  (∀ e ∈ c.entries, e.IsPlain) ∧ ∀ v ∈ c.value?, v.IsScalar

/-- The entries of a key with this content, which end on a line. -/
def Content.entriesOf (c : Content) (line : Nat) (k : Text) : List Entry :=
  c.entries ++ (c.value?.map (Entry.pair line k)).toList

theorem Content.isPlain_of_entriesOf {c : Content} {line : Nat} {k : Text}
    (h : ∀ e ∈ c.entriesOf line k, e.IsPlain) : c.IsPlain := by
  rw [entriesOf, List.forall_mem_append] at h
  refine ⟨h.1, fun v hv => ?_⟩
  rw [Option.mem_def.1 hv] at h
  exact h.2 (.pair line k v) (List.mem_singleton_self _)

/-! ### Arrays -/

/-- In an array, what has plain entries only is a value. -/
def ValueInArray (value : Reader Content) : Prop :=
  ∀ ⦃t : Text⦄ ⦃p : Parsed Content t⦄, value t = some p → (∀ e ∈ p.value.entries, e.IsPlain) →
    p.value.value?.isSome = true

theorem ValueInArray.elements {value : Reader Content} (hvalue : ValueInArray value) {t : Text}
    {p : Parsed Content t} (h : elements value t = some p)
    (hplain : ∀ e ∈ p.value.entries, e.IsPlain) : p.value.value? = some .array := by
  have hlast {c : Content} {u rest : Text} {hlt : rest.length < u.length}
      (hc : value u = some ⟨c, rest, hlt⟩) {p : Parsed Content u}
      (hp : ((closing rest).map
        fun p => (p.map fun _ => c.single).weaken (Nat.le_of_lt hlt)) = some p)
      (hplain : ∀ e ∈ p.value.entries, e.IsPlain) : p.value.value? = some .array := by
    obtain ⟨q, -, rfl⟩ := Option.map_eq_some_iff.1 hp
    obtain ⟨v, hv⟩ := Option.isSome_iff_exists.1 (hvalue hc hplain)
    exact congrArg (Option.map fun _ => Value.array) hv
  fun_induction Toml.elements value t with
  | case1 => cases h
  | case2 t c rest hlt hc u hu q hq ih =>
    obtain rfl := Option.some.inj h
    obtain ⟨hfirst, hmore⟩ := List.forall_mem_append.1 hplain
    obtain ⟨v, hv⟩ := Option.isSome_iff_exists.1 (hvalue hc hfirst)
    have hrest := ih hq hmore
    exact (congrArg (Option.bind · fun _ => q.value.value?) hv).trans hrest
  | case3 t c rest hlt hc u hu hnone ih => exact hlast hc h hplain
  | case4 t c rest hlt hc hu => exact hlast hc h hplain

theorem ValueInArray.array {value : Reader Content} (hvalue : ValueInArray value) {t : Text}
    {p : Parsed Content t} (h : array value t = some p)
    (hplain : ∀ e ∈ p.value.entries, e.IsPlain) : p.value.value? = some .array := by
  unfold Toml.array at h
  split at h
  · split at h
    · obtain rfl := Option.some.inj h
      rfl
    · obtain ⟨q, hq, rfl⟩ := Option.map_eq_some_iff.1 h
      exact hvalue.elements (p := q) hq hplain
  · cases h

/-! ### Values -/

variable {total : Nat}

theorem datetime_value {t : Text} {p : Parsed Value t} (h : datetime t = some p) :
    ¬ p.value.IsScalar := by
  rw [datetime] at h
  split_ifs at h
  · rw [(Parsed.take?_eq_some h).1]
    exact id
  · rw [(Parsed.take?_eq_some h).1]
    exact id

theorem boolean_value {t : Text} {p : Parsed Value t} (h : boolean t = some p) :
    ¬ p.value.IsScalar := by
  rw [boolean] at h
  split_ifs at h
  · rw [(Parsed.take?_eq_some h).1]
    exact id
  · rw [(Parsed.take?_eq_some h).1]
    exact id

/-- What is read as an inline table: its opening, its pairs and its end. -/
theorem inlineTable_eq_some {opening : Nat → Entry} {pair : Reader (List Entry)} {t : Text}
    {p : Parsed (List Entry) t} (h : inlineTable total opening pair t = some p) :
    ∃ u, t = 123 :: u ∧ skipSpaces (inlinePairs pair (skipSpaces u)).rest = 125 :: p.rest ∧
      p.value = opening (lineAt total t) :: (inlinePairs pair (skipSpaces u)).entries ++
        [.closing] := by
  unfold inlineTable at h
  split at h
  · rename_i u
    dsimp only at h
    split at h
    · rename_i rest hrest
      obtain rfl := Option.some.inj h
      exact ⟨u, rfl, hrest, rfl⟩
    · cases h
  · cases h

/-- What is read as a value: one that stands there if it is an integer or a string, a string that
stands for no text, an array or an inline table. -/
theorem valueWith_cases {array : Reader Content} {table : Reader (List Entry)} {t : Text}
    {p : Parsed Content t} (h : valueWith total array table t = some p) :
    (∃ v, p.value = ⟨[], some v⟩ ∧ (v.IsScalar → ScalarAt v t p.rest)) ∨
      (∃ line, p.value = ⟨[.unreadable line], none⟩) ∨ array t = some p ∨
      ∃ q, table t = some q ∧ p.value = ⟨q.value, none⟩ ∧ p.rest = q.rest := by
  rw [valueWith] at h
  simp only [Option.orElse_eq_some, Option.map_eq_some_iff] at h
  rcases h with ⟨q, hq, rfl⟩ | ⟨-, ⟨q, hq, rfl⟩ | ⟨-, ⟨q, hq, rfl⟩ | ⟨-, ⟨q, hq, rfl⟩ |
    ⟨-, h | ⟨-, q, hq, rfl⟩⟩⟩⟩⟩
  · exact .inl ⟨q.value, rfl, fun hv => absurd hv (datetime_value hq)⟩
  · refine .inl ⟨q.value, rfl, fun hv => ?_⟩
    obtain ⟨digits, hdigits, hat⟩ | ⟨digits, hdigits⟩ := integerAt_of_number hq
    · rw [hdigits]
      exact .integer hat
    · rw [hdigits] at hv
      exact hv.elim
  · obtain ⟨s, hs, hat⟩ | ⟨line, hline⟩ := stringAt_of_string hq
    · exact .inl ⟨.string s, congrArg Content.ofReadable hs, fun _ => .string hat⟩
    · exact .inr (.inl ⟨line, congrArg Content.ofReadable hline⟩)
  · exact .inl ⟨q.value, rfl, fun hv => absurd hv (boolean_value hq)⟩
  · exact .inr (.inr (.inl h))
  · exact .inr (.inr (.inr ⟨q, hq, rfl, rfl⟩))

/-- The same of the value of a key: arrays and inline tables are one level less deep inside. -/
theorem value_cases {depth : Nat} {inArray : Bool} {k t : Text} {p : Parsed Content t}
    (h : value total depth inArray k t = some p) (hplain : ∀ e ∈ p.value.entries, e.IsPlain) :
    (∃ v, p.value = ⟨[], some v⟩ ∧ (v.IsScalar → ScalarAt v t p.rest)) ∨
      (∃ d, d < depth ∧ array (value total d true k) t = some p) ∨
      ∃ d u line body, d < depth ∧ inArray = false ∧ t = 123 :: u ∧
        body = inlinePairs (pairWith total (value total d false)) (skipSpaces u) ∧
        skipSpaces body.rest = 125 :: p.rest ∧
          p.value = ⟨.opening line k :: body.entries ++ [.closing], none⟩ := by
  cases depth with
  | zero =>
    obtain hv | ⟨line, hline⟩ | h | ⟨q, hq, -⟩ := valueWith_cases h
    · exact .inl hv
    · rw [hline] at hplain
      exact (hplain _ (List.mem_singleton_self _)).elim
    · cases h
    · cases hq
  | succ depth =>
    obtain hv | ⟨line, hline⟩ | h | ⟨q, hq, hvalue, hrest⟩ := valueWith_cases h
    · exact .inl hv
    · rw [hline] at hplain
      exact (hplain _ (List.mem_singleton_self _)).elim
    · exact .inr (.inl ⟨depth, Nat.lt_succ_self _, h⟩)
    · obtain ⟨u, rfl, hend, hentries⟩ := inlineTable_eq_some hq
      rw [← hrest] at hend
      rw [hentries] at hvalue
      cases inArray with
      | false => exact .inr (.inr ⟨depth, u, _, _, Nat.lt_succ_self _, rfl, rfl, rfl, hend, hvalue⟩)
      | true =>
        -- an inline table in an array is a further table under its key, and not plain
        rw [hvalue] at hplain
        exact (hplain _ List.mem_cons_self).elim

theorem valueInArray_value (total depth : Nat) (k : Text) :
    ValueInArray (value total depth true k) := by
  induction depth using Nat.strongRecOn with
  | ind depth ih =>
    intro t p h hplain
    obtain ⟨v, hv, -⟩ | ⟨d, hd, h⟩ | ⟨d, u, line, body, -, hfalse, -⟩ := value_cases h hplain
    · rw [hv]
      rfl
    · rw [(ih d hd).array h hplain]
      rfl
    · cases hfalse

/-! ### Pairs that are read -/

/-- The reader finds pairs, and leaves the path as it is. -/
def FindsPairs (pair : Reader (List Entry)) : Prop :=
  ∀ ⦃t : Text⦄ ⦃p : Parsed (List Entry) t⦄, pair t = some p → (∀ e ∈ p.value, e.IsPlain) →
    ∀ path, PairAt path (assignments path p.value) t p.rest ∧ pathAfter path p.value = path

/-- The reader finds values of keys, and leaves the path as it is. -/
def FindsValues (value : Text → Reader Content) : Prop :=
  ∀ ⦃k t : Text⦄ ⦃p : Parsed Content t⦄, value k t = some p → p.value.IsPlain → ∀ path line,
    ValueAt path k (assignments path (p.value.entriesOf line k)) t p.rest ∧
      pathAfter path (p.value.entriesOf line k) = path

theorem FindsValues.pairWith {value : Text → Reader Content} (hvalue : FindsValues value) :
    FindsPairs (pairWith total value) := by
  intro t p h hplain path
  unfold Toml.pairWith at h
  split at h
  · cases h
  · rename_i k rest hlt hkey
    split at h
    · rename_i u hrest
      obtain ⟨q, hq, rfl⟩ := Option.map_eq_some_iff.1 h
      cases k with
      | error line => exact (hplain _ (List.mem_singleton_self _)).elim
      | ok k =>
        obtain ⟨v, hv, ht⟩ := exists_skipSpaces rest
        obtain ⟨w, hw, hu⟩ := exists_skipSpaces u
        obtain ⟨hat, hpath⟩ :=
          hvalue hq (Content.isPlain_of_entriesOf hplain) path (lineAt total q.rest)
        refine ⟨.mk hv hw ?_ hat, hpath⟩
        rw [← hu, ← hrest, ← ht]
        exact keyAt_of_key hkey rfl
    · cases h

theorem parts_skipComma (t : Text) : Parts t (skipComma t) := by
  obtain ⟨v, hv, ht⟩ := exists_skipSpaces t
  unfold skipComma
  split
  · rename_i u hu
    obtain ⟨w, hw, hskip⟩ := exists_skipSpaces u
    rw [hu] at ht
    rw [ht]
    nth_rewrite 1 [hskip]
    exact .comma hv hw
  · exact .nothing

theorem FindsPairs.inlinePairs {pair : Reader (List Entry)} (hpair : FindsPairs pair) {t : Text}
    (hplain : ∀ e ∈ (inlinePairs pair t).entries, e.IsPlain) (path : List Text) :
    PairsAt path (assignments path (inlinePairs pair t).entries) t (inlinePairs pair t).rest ∧
      pathAfter path (inlinePairs pair t).entries = path := by
  fun_induction Toml.inlinePairs pair t with
  | case1 => exact ⟨.nil, rfl⟩
  | case2 pair t es rest hlt hes more ih =>
    obtain ⟨hfirst, hmore⟩ := List.forall_mem_append.1 hplain
    obtain ⟨hat, hpath⟩ := hpair hes hfirst path
    obtain ⟨hats, hpaths⟩ := ih hpair hmore
    rw [assignments_append, pathAfter_append, hpath]
    exact ⟨.cons hat (parts_skipComma rest) hats, hpaths⟩

/-- **The value of a key is read as what it assigns.** -/
theorem findsValues_value (total depth : Nat) : FindsValues (value total depth false) := by
  induction depth using Nat.strongRecOn with
  | ind depth ih =>
    intro k t p h hplain path line
    obtain ⟨v, hv, hat⟩ | ⟨d, hd, h⟩ | ⟨d, u, line', body, hd, -, rfl, hbody, hend, hvalue⟩ :=
      value_cases h hplain.1
    · rw [hv] at hplain ⊢
      exact ⟨.scalar (hat (hplain.2 v rfl)), rfl⟩
    · have harray := (valueInArray_value total d k).array h hplain.1
      exact (hplain.2 .array harray).elim
    · rw [hvalue] at hplain ⊢
      obtain ⟨v, hv, hu⟩ := exists_skipSpaces u
      obtain ⟨w, hw, hrest⟩ := exists_skipSpaces body.rest
      rw [hend] at hrest
      obtain ⟨-, hinner⟩ := List.forall_mem_cons.1 (List.forall_mem_append.1 hplain.1).1
      rw [hbody] at hinner hrest ⊢
      obtain ⟨hat, hpath⟩ := (ih d hd).pairWith.inlinePairs hinner (path ++ [k])
      obtain ⟨hassign, hafter⟩ := assignments_inline line' hpath
      rw [Content.entriesOf, Option.map_none, Option.toList_none, List.append_nil, hassign]
      rw [hrest] at hat
      have htable := ValueAt.table hv hw hat
      rw [← hu] at htable
      exact ⟨htable, hafter⟩

theorem findsPairs_pair (total : Nat) : FindsPairs (pair total) := by
  intro t p h
  exact (findsValues_value total t.length).pairWith h

/-! ### Lines that are read -/

theorem pathAt_of_path {t : Text} {ks : List Text} {p : Parsed (Readable (List Text)) t}
    (h : path total t = some p) (hks : p.value = .ok ks) : PathAt ks t p.rest := by
  have hlast {t rest : Text} {k : Readable Text} {ks : List Text} {hlt : rest.length < t.length}
      (hkey : key total t = some ⟨k, rest, hlt⟩) (hks : k.map (fun k => [k]) = .ok ks) :
        PathAt ks t rest := by
    obtain ⟨k', hk, rfl⟩ := exists_of_map_eq_ok hks
    exact .last (keyAt_of_key hkey hk)
  fun_induction path total t generalizing ks with
  | case1 => cases h
  | case2 t k rest hlt hkey u hu ks' rest' hlt' hpath ih =>
    obtain rfl := Option.some.inj h
    cases k with
    | error line => cases hks
    | ok k =>
      obtain ⟨ks'', hks'', rfl⟩ := exists_of_map_eq_ok (f := fun ks => k :: ks) hks
      obtain ⟨v, hv, hrest⟩ := exists_skipSpaces rest
      obtain ⟨w, hw, hskip⟩ := exists_skipSpaces u
      rw [hu, hskip] at hrest
      have hat : KeyAt k t rest := keyAt_of_key hkey rfl
      rw [hrest] at hat
      exact .cons hv hw hat (ih hpath hks'')
  | case3 t k rest hlt hkey =>
    obtain rfl := Option.some.inj h
    exact hlast hkey hks
  | case4 t k rest hlt hkey =>
    obtain rfl := Option.some.inj h
    exact hlast hkey hks

theorem KeyAt.suffix {k t rest : Text} (h : KeyAt k t rest) : rest <:+ t := by
  cases h with
  | bare _ => exact List.suffix_append _ _
  | @quoted w _ _ _ => exact ⟨34 :: (w ++ [34]), by simp⟩

theorem PathAt.suffix {ks : List Text} {t rest : Text} (h : PathAt ks t rest) : rest <:+ t := by
  induction h with
  | last hkey => exact hkey.suffix
  | @cons k ks v w t u rest _ _ hkey _ ih =>
    have hu : u <:+ v ++ 46 :: (w ++ u) := ⟨v ++ 46 :: w, by simp⟩
    exact ih.trans (hu.trans hkey.suffix)

theorem bracketed_one {t : Text} {p : Parsed (Readable (Text × List Text)) t} {name : Text}
    {ks : List Text} (h : bracketed total 1 t = some p) (hks : p.value = .ok (name, ks)) :
    ∃ v w u, IsBlank v ∧ IsBlank w ∧ t = 91 :: (v ++ u) ∧ PathAt ks u (w ++ 93 :: p.rest) := by
  unfold bracketed at h
  split at h
  · cases h
  rename_i hopen
  dsimp only at h
  split at h
  · cases h
  rename_i path rest hlt hpath
  split at h
  · rename_i hclose
    obtain ⟨hvalue, hrest, -⟩ := Parsed.take?_eq_some h
    obtain ⟨ks', hpathOk, heq⟩ := exists_of_map_eq_ok (m := path) (hvalue.symm.trans hks)
    obtain ⟨-, rfl⟩ := Prod.mk.inj heq
    have hat := pathAt_of_path hpath hpathOk
    obtain ⟨v, hv, hu⟩ := exists_skipSpaces (t.drop 1)
    obtain ⟨w, hw, hw'⟩ := exists_skipSpaces rest
    have ht : t = 91 :: (v ++ skipSpaces (t.drop 1)) := by
      have htake : t.take 1 = [91] := by simpa using hopen
      rw [← hu]
      exact (List.take_append_drop 1 t).symm.trans (congrArg (· ++ t.drop 1) htake)
    have hafter : skipSpaces rest = 93 :: (skipSpaces rest).drop 1 :=
      (List.take_append_drop 1 _).symm.trans (congrArg (· ++ (skipSpaces rest).drop 1) hclose)
    have hsuffix : (skipSpaces rest).drop 1 <:+ t := by
      have hskip : skipSpaces rest <:+ rest := List.dropWhile_suffix _
      have hskip' : skipSpaces (t.drop 1) <:+ t.drop 1 := List.dropWhile_suffix _
      exact (List.drop_suffix 1 _).trans
        (hskip.trans (hat.suffix.trans (hskip'.trans (List.drop_suffix 1 t))))
    have hrest' : p.rest = (skipSpaces rest).drop 1 := by
      rw [hrest, List.suffix_iff_eq_drop.1 hsuffix, List.length_drop]
    refine ⟨v, w, _, hv, hw, ht, ?_⟩
    rw [hrest', ← hafter, ← hw']
    exact hat
  · cases h

/-- **A header that is read** names the table of its path. -/
theorem exists_of_header {t : Text} {p : Parsed Entry t} (h : header total t = some p)
    (hplain : p.value.IsPlain) :
    ∃ line name path, p.value = .table line name path ∧ ∃ v w u, IsBlank v ∧ IsBlank w ∧
      t = 91 :: (v ++ u) ∧ PathAt path u (w ++ 93 :: p.rest) := by
  rw [header] at h
  split at h
  · rename_i q hq
    obtain rfl := Option.some.inj h
    cases hvalue : q.value with
    | error line =>
      rw [Parsed.map, hvalue] at hplain
      exact hplain.elim
    | ok x =>
      refine ⟨lineAt total q.rest, x.1, x.2, ?_, bracketed_one hq hvalue⟩
      rw [Parsed.map, hvalue]
      rfl
  · obtain ⟨q, -, rfl⟩ := Option.map_eq_some_iff.1 h
    rw [Parsed.map] at hplain
    cases hvalue : q.value with
    | error line =>
      rw [hvalue] at hplain
      exact hplain.elim
    | ok x =>
      rw [hvalue] at hplain
      exact hplain.elim

/-- **The pairs behind a header are read as what they assign.** -/
theorem bodyAt_pairs {t : Text} (hplain : ∀ e ∈ (pairs total t).entries, e.IsPlain)
    (path : List Text) :
    BodyAt path (assignments path (pairs total t).entries) t (pairs total t).rest ∧
      pathAfter path (pairs total t).entries = path := by
  fun_induction pairs total t with
  | case1 => exact ⟨.nil, rfl⟩
  | case2 t es rest hlt hes more ih =>
    obtain ⟨hfirst, hmore⟩ := List.forall_mem_append.1 hplain
    obtain ⟨w, hw, ht, -⟩ := exists_skipLayout t
    obtain ⟨hat, hpath⟩ := findsPairs_pair total hes hfirst path
    obtain ⟨hats, hpaths⟩ := ih hmore
    rw [assignments_append, pathAfter_append, hpath]
    have hcons := BodyAt.cons hw hat (trails_skipToEnd rest) hats
    rw [← ht] at hcons
    exact ⟨hcons, hpaths⟩

/-- **A line is read as what it assigns.** -/
theorem lineAt_expression {t : Text} (hplain : ∀ e ∈ (expression total t).entries, e.IsPlain)
    (path : List Text) :
    LineAt path (assignments path (expression total t).entries)
      (pathAfter path (expression total t).entries) t (expression total t).rest := by
  obtain ⟨w, hw, ht⟩ := exists_skipSpaces t
  revert hplain
  fun_cases expression total t with
  | case1 u e rest hlt hheader more =>
    intro hplain
    obtain ⟨hfirst, hmore⟩ := List.forall_mem_cons.1 hplain
    obtain ⟨line, name, next, rfl, v, x, u, hv, hx, hu, hpath⟩ := exists_of_header hheader hfirst
    obtain ⟨hbody, hafter⟩ := bodyAt_pairs hmore next
    have hline : LineAt path _ next _ _ := .header hw hv hx hpath (trails_skipToEnd rest) hbody
    rw [← hu, ← ht] at hline
    show LineAt path (assignments next more.entries) (pathAfter next more.entries) t more.rest
    rwa [hafter]
  | case2 u hnone es rest hlt hpair =>
    intro hplain
    obtain ⟨hat, hafter⟩ := findsPairs_pair total hpair hplain path
    have hline : LineAt path _ path _ _ := .pair hw hat (trails_skipToEnd rest)
    rw [← ht] at hline
    rwa [hafter]
  | case3 u hheader hpair =>
    intro hplain
    exact .empty (trails_skipToEnd t)

/-- **A text is read as what it says.** -/
theorem says_of_expressions {t : Text} {es : List Entry} (h : expressions total t = some es)
    (hplain : ∀ e ∈ es, e.IsPlain) (path : List Text) : Says path (assignments path es) t := by
  fun_induction expressions total t generalizing es path with
  | case1 t es' _ hes =>
    obtain rfl := Option.some.inj h
    have hentries : ∀ e ∈ (expression total t).entries, e.IsPlain := by rwa [hes]
    have hline := lineAt_expression hentries path
    rw [hes] at hline
    exact .last hline
  | case2 t es' b rest _ hes hb ih =>
    obtain ⟨fs, hfs, rfl⟩ := Option.map_eq_some_iff.1 h
    obtain ⟨hfirst, hmore⟩ := List.forall_mem_append.1 hplain
    have hentries : ∀ e ∈ (expression total t).entries, e.IsPlain := by rwa [hes]
    have hline := lineAt_expression hentries path
    rw [hes] at hline
    obtain ⟨w, hw, hrest, -⟩ := exists_lineEnds rest
    dsimp only at hline
    rw [hrest] at hline
    rw [assignments_append]
    exact .cons (List.forall_mem_cons.2 ⟨isBreak_iff.1 hb, hw⟩) hline (ih hfs hmore _)
  | case3 => cases h

theorem says_of_read? {t : Text} {es : List Entry} (h : read? t = some es)
    (hplain : ∀ e ∈ es, e.IsPlain) :
    Says [] (assignments [] es) (Text.repaired t) := says_of_expressions h hplain []

/-! ### Flat documents -/

/-- An integer or a string below `n` tables. -/
def Item.Flat : (n : Nat) → Item → Prop
  | 0, .value _ v => v.IsScalar
  | n + 1, .table _ _ fields => ∀ k i, Fields.get? fields k = some i → i.Flat n
  | _, _ => False

theorem Item.not_flat_tables (n line : Nat) (elements : List Fields) :
    ¬ (Item.tables line elements).Flat n := by
  cases n <;> exact id

namespace Fields

/-- All keys stand for integers and strings below `n` tables. -/
def Flat (n : Nat) (fs : Fields) : Prop := ∀ k i, fs.get? k = some i → i.Flat n

section

variable {n : Nat} {fs fs' : Fields} {k : Text}

theorem Flat.item {i : Item} (h : Flat n (put k i fs)) : i.Flat n := h k i (get?_put_self k i fs)

/-- Before a table was put under a key, all was flat if the table there was. -/
theorem Flat.of_put_table {line : Nat} {headed : Bool} {fields : Fields}
    (htables : ¬ fs.HasTables k) (hvalue : fs.value? k = none)
    (h : Flat n (put k (.table line headed fields) fs)) :
    ∃ m, n = m + 1 ∧ Flat m fields ∧ (Flat m (fs.inner k) → Flat n fs) := by
  cases n with
  | zero => exact h.item.elim
  | succ m =>
    refine ⟨m, rfl, h.item, fun hinner k' i hi => ?_⟩
    by_cases hk : k' = k
    · subst hk
      cases i with
      | value line v =>
        rw [value?, hi] at hvalue
        cases hvalue
      | table line headed fields' =>
        rw [inner, hi] at hinner
        exact hinner
      | tables line elements => exact absurd ⟨line, elements, hi⟩ htables
    · exact h k' i (by rw [get?_put_of_ne hk, hi])

theorem Flat.of_addPair {line : Nat} {v : Value} (h : Flat n fs')
    (hadd : addPair line k v fs = .ok fs') : Flat n fs ∧ v.IsScalar := by
  obtain ⟨hk, rfl⟩ := addPair_eq_ok hadd
  have hitem := h.item
  refine ⟨fun k' i hi => h k' i ?_, ?_⟩
  · have hne : k' ≠ k := by
      rintro rfl
      cases hk.symm.trans hi
    rw [get?_put_of_ne hne, hi]
  · cases n with
    | zero => exact hitem
    | succ m => exact hitem.elim

theorem Flat.of_addTable {headed : Bool} {line : Nat} {name : Text} (h : Flat n fs')
    (hadd : addTable headed line name k fs = .ok fs') : Flat n fs := by
  obtain ⟨htables, hvalue, rfl⟩ := addTable_eq_ok hadd
  obtain ⟨m, rfl, hinner, hflat⟩ := Flat.of_put_table htables hvalue h
  exact hflat hinner

theorem Flat.not_addElement {line : Nat} {name : Text} (h : Flat n fs') :
    addElement line name k fs ≠ .ok fs' := by
  intro hadd
  obtain ⟨-, -, first, elements, rfl⟩ := addElement_eq_ok hadd
  exact Item.not_flat_tables n first elements h.item

/-- Before a change further in all was flat, and the change was made to a table that then was flat
itself. -/
theorem Flat.of_modify {line : Nat} {f : Fields → Except Conflict Fields} {path : List Text}
    (hf : ∀ {m fs fs'}, Flat m fs' → f fs = .ok fs' → Flat m fs) (h : Flat n fs')
    (hmodify : modify line f path fs = .ok fs') :
    Flat n fs ∧ ∃ m gs gs', f gs = .ok gs' ∧ Flat m gs' := by
  induction path generalizing n fs fs' with
  | nil => exact ⟨hf h hmodify, n, fs, fs', hmodify, h⟩
  | cons k ks ih =>
    obtain ⟨hvalue, ⟨htables, l, headed, fields, hfields, rfl⟩ | ⟨⟨l, elements, hk⟩, hput⟩⟩ :=
      modify_cons_cases hmodify
    · obtain ⟨m, rfl, hinner, hflat⟩ := Flat.of_put_table htables hvalue h
      obtain ⟨hbefore, hchange⟩ := ih hinner hfields
      exact ⟨hflat hbefore, hchange⟩
    · have hnot := Item.not_flat_tables n
      obtain rfl | ⟨l, elements, rfl⟩ := hput
      · exact absurd (h k _ hk) (hnot l elements)
      · exact absurd h.item (hnot l elements)

end

end Fields

/-- Before an entry was added to a flat document, the document was flat; and the entry is plain. -/
theorem Document.flat_of_add {d d' : Document} {e : Entry} (h : d.add e = .ok d')
    (hflat : Fields.Flat 1 d'.fields) : Fields.Flat 1 d.fields ∧ e.IsPlain := by
  cases e with
  | unreadable line => cases h
  | pair line k v =>
    obtain ⟨fs, hm, rfl⟩ := exists_of_map_eq_ok h
    obtain ⟨hbefore, m, gs, gs', hadd, hgs⟩ :=
      Fields.Flat.of_modify (fun h hadd => (h.of_addPair hadd).1) hflat hm
    exact ⟨hbefore, (hgs.of_addPair hadd).2⟩
  | opening line k =>
    obtain ⟨fs, hm, rfl⟩ := exists_of_map_eq_ok h
    exact ⟨(Fields.Flat.of_modify Fields.Flat.of_addTable hflat hm).1, trivial⟩
  | closing =>
    obtain rfl := Except.ok.inj h
    exact ⟨hflat, trivial⟩
  | table line name path =>
    obtain ⟨fs, hm, rfl⟩ := exists_of_map_eq_ok h
    exact ⟨(Fields.Flat.of_modify Fields.Flat.of_addTable hflat hm).1, trivial⟩
  | openingElement line k =>
    obtain ⟨fs, hm, rfl⟩ := exists_of_map_eq_ok h
    obtain ⟨-, m, gs, gs', hadd, hgs⟩ :=
      Fields.Flat.of_modify (fun h hadd => absurd hadd h.not_addElement) hflat hm
    exact absurd hadd hgs.not_addElement
  | element line name path =>
    obtain ⟨fs, hm, rfl⟩ := exists_of_map_eq_ok h
    obtain ⟨-, m, gs, gs', hadd, hgs⟩ :=
      Fields.Flat.of_modify (fun h hadd => absurd hadd h.not_addElement) hflat hm
    exact absurd hadd hgs.not_addElement

/-- **The entries of a flat document are plain.** -/
theorem Document.isPlain_of_foldlM {d d' : Document} {es : List Entry}
    (h : es.foldlM Document.add d = .ok d') (hflat : Fields.Flat 1 d'.fields) :
    Fields.Flat 1 d.fields ∧ ∀ e ∈ es, e.IsPlain := by
  induction es generalizing d with
  | nil =>
    obtain rfl := Except.ok.inj h
    exact ⟨hflat, List.forall_mem_nil _⟩
  | cons e es ih =>
    obtain ⟨d₁, hadd, hrest⟩ := exists_of_foldlM_cons h
    obtain ⟨hflat₁, hplain⟩ := ih hrest
    obtain ⟨hbefore, he⟩ := flat_of_add hadd hflat₁
    exact ⟨hbefore, List.forall_mem_cons.2 ⟨he, hplain⟩⟩

theorem Fields.Flat.isPlain_of_ofEntries {es : List Entry} {fs : Fields} (hflat : Flat 1 fs)
    (h : Fields.ofEntries es = .ok fs) : ∀ e ∈ es, e.IsPlain := by
  rw [ofEntries] at h
  obtain ⟨d, hd, rfl⟩ := exists_of_map_eq_ok h
  exact (Document.isPlain_of_foldlM hd hflat).2

end Scriptlet.Toml
