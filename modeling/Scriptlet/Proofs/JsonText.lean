import Scriptlet.Proofs.JsonScalar

/-!
# JSON read back

Every written value is read back: `read? v.compact = some v.value` (`read?_compact`), where
`v.value` has the same shape as `v` and its strings are the repaired ones. It is proved for a value
in front of any text that may stand behind it in a list or an object (`Piece`), by induction on the
value. The elements of a list and the fields of an object are both pieces with commas between them,
read by one lemma.
-/

namespace Scriptlet

namespace JsonValue

open Toml (Reader)

/-! ### Lists and objects -/

theorem skipBlanks_cons {b : UInt8} (hb : isBlank b = false) (t : Text) :
    skipBlanks (b :: t) = b :: t := by
  simp [skipBlanks, hb]

/-- The text `w` is read as `a` wherever a value may stand, and it begins like an item of a list. -/
structure Piece {α : Type} (item : Reader α) (w : Text) (a : α) : Prop where
  head : ∃ b u, w = b :: u ∧ isBlank b = false ∧ b ≠ 93 ∧ b ≠ 125
  reads : ∀ rest, Follows rest → Reads item (w ++ rest) a rest

/-- Pieces with a comma between neighbours. -/
def joined : List Text → Text
  | [] => []
  | w :: ws => w ++ ws.flatMap (44 :: ·)

theorem follows_flatMap {c : UInt8} (hc : c = 93 ∨ c = 125) (ws : List Text) (rest : Text) :
    Follows (ws.flatMap (44 :: ·) ++ c :: rest) := by
  cases ws with
  | nil =>
    rintro _ ⟨⟩
    rcases hc with rfl | rfl <;> simp
  | cons w ws =>
    rintro _ ⟨⟩
    simp

section Items

variable {α : Type} {item : Reader α} {opening closing : UInt8} (hc : closing = 93 ∨ closing = 125)

include hc

theorem Reads.items_last {t rest : Text} {a : α} (h : Reads item t a (closing :: rest)) :
    Reads (items item closing) t [a] rest := by
  have hs : skipBlanks (closing :: rest) = closing :: rest :=
    skipBlanks_cons (by rcases hc with rfl | rfl <;> rfl) rest
  obtain ⟨hlt, h⟩ := h
  refine ⟨Nat.lt_of_succ_lt hlt, ?_⟩
  rw [items]
  simp only [h]
  split
  · rename_i hr
    rw [hs] at hr
    cases hr
  · rename_i b u hr
    rw [hs] at hr
    cases hr
    simp

theorem Reads.items_more {t u rest : Text} {a : α} {as : List α} (h : Reads item t a (44 :: u))
    (hmore : Reads (items item closing) (skipBlanks u) as rest) :
    Reads (items item closing) t (a :: as) rest := by
  have hs : skipBlanks (44 :: u) = 44 :: u := skipBlanks_cons rfl u
  have hne : (44 : UInt8) ≠ closing := by rcases hc with rfl | rfl <;> decide
  have hle := length_skipBlanks u
  obtain ⟨hlt, h⟩ := h
  obtain ⟨hlt', hmore⟩ := hmore
  rw [List.length_cons] at hlt
  refine ⟨by omega, ?_⟩
  rw [items]
  simp only [h]
  split
  · rename_i hr
    rw [hs] at hr
    cases hr
  · rename_i b v hr
    rw [hs] at hr
    cases hr
    simp [hne, hmore, Parsed.map, Parsed.weaken]

/-- **Items are read one by one**, if each of them is. -/
theorem reads_items {w : Text} {a : α} {ps : List (Text × α)} (hw : Piece item w a)
    (hps : ∀ p ∈ ps, Piece item p.1 p.2) (rest : Text) :
    Reads (items item closing) (w ++ ((ps.map Prod.fst).flatMap (44 :: ·) ++ closing :: rest))
      (a :: ps.map Prod.snd) rest := by
  induction ps generalizing w a with
  | nil => exact (hw.reads _ (follows_flatMap hc [] rest)).items_last hc
  | cons p ps ih =>
    obtain ⟨hp, hps⟩ := List.forall_mem_cons.1 hps
    refine (hw.reads _ (follows_flatMap hc _ rest)).items_more hc ?_
    have hnext := ih hp hps
    obtain ⟨b, u, hb, hblank, -⟩ := hp.head
    simp only [List.append_eq, List.append_assoc, hb, List.cons_append,
      skipBlanks_cons hblank] at hnext ⊢
    exact hnext

theorem reads_between_nil (rest : Text) :
    Reads (between item opening closing) (opening :: closing :: rest) [] rest := by
  have hs : skipBlanks (closing :: rest) = closing :: rest :=
    skipBlanks_cons (by rcases hc with rfl | rfl <;> rfl) rest
  refine ⟨by simp only [List.length_cons]; omega, ?_⟩
  simp only [between, if_true]
  split
  · rename_i hr
    rw [hs] at hr
    cases hr
  · rename_i c u hr
    rw [hs] at hr
    cases hr
    simp

omit hc in
theorem Reads.between {b : UInt8} {t rest : Text} {as : List α} (hb : isBlank b = false)
    (hne : b ≠ closing) (h : Reads (items item closing) (b :: t) as rest) :
    Reads (between item opening closing) (opening :: b :: t) as rest := by
  have hs : skipBlanks (b :: t) = b :: t := skipBlanks_cons hb t
  obtain ⟨hlt, h⟩ := h
  refine ⟨Nat.lt_succ_of_lt hlt, ?_⟩
  simp only [JsonValue.between, if_true]
  split
  · rename_i hr
    rw [hs] at hr
    cases hr
  · rename_i c u hr
    rw [hs] at hr
    cases hr
    simp [hne, h, Parsed.weaken]

/-- A list of pieces between its opening and its closing byte. -/
theorem reads_pieces {ps : List (Text × α)} (hps : ∀ p ∈ ps, Piece item p.1 p.2) (rest : Text) :
    Reads (between item opening closing) (opening :: (joined (ps.map Prod.fst) ++ closing :: rest))
      (ps.map Prod.snd) rest := by
  cases ps with
  | nil => exact reads_between_nil hc rest
  | cons p ps =>
    obtain ⟨hp, hps⟩ := List.forall_mem_cons.1 hps
    have hitems := reads_items hc hp hps rest
    obtain ⟨b, u, hb, hblank, h93, h125⟩ := hp.head
    have hne : b ≠ closing := by rcases hc with rfl | rfl <;> assumption
    rw [hb, List.cons_append] at hitems
    rw [List.map_cons, joined, List.append_assoc, hb, List.cons_append]
    exact hitems.between hblank hne

end Items

/-- A field is a piece, if its value is. -/
theorem Piece.field {value : Reader JsonValue} {w : Text} {v : JsonValue} (h : Piece value w v)
    (name : Text) : Piece (field value) (Json.quote name ++ 58 :: w) (name.repaired, v) := by
  constructor
  · exact ⟨34, _, rfl, rfl, by decide, by decide⟩
  · intro rest hrest
    have hs : skipBlanks (58 :: (w ++ rest)) = 58 :: (w ++ rest) := skipBlanks_cons rfl _
    have hskip : skipBlanks (w ++ rest) = w ++ rest := by
      obtain ⟨b, u, rfl, hb, -⟩ := h.head
      exact skipBlanks_cons hb (u ++ rest)
    obtain ⟨hlt, hname⟩ := reads_text name (58 :: (w ++ rest))
    obtain ⟨hlt', hv⟩ : Reads value (skipBlanks (w ++ rest)) v rest := by
      rw [hskip]
      exact h.reads rest hrest
    have hle := length_skipBlanks (w ++ rest)
    rw [List.append_assoc, List.cons_append]
    rw [List.length_cons] at hlt
    refine ⟨by omega, ?_⟩
    simp only [JsonValue.field, hname]
    split
    · rename_i hr
      rw [hs] at hr
      cases hr
    · rename_i c u hr
      rw [hs] at hr
      cases hr
      simp [hv, Parsed.map, Parsed.weaken]

/-! ### Values -/

theorem Reads.map {α β : Type} {p : Reader α} {t rest : Text} {a : α} (h : Reads p t a rest)
    (f : α → β) : Reads (fun t => (p t).map (·.map f)) t (f a) rest := by
  obtain ⟨hlt, h⟩ := h
  exact ⟨hlt, by simp [h, Parsed.map]⟩

theorem reads_word {w : Text} (hw : w ≠ []) (v : JsonValue) (rest : Text) :
    Reads (word w v) (w ++ rest) v rest := by
  have hlt : rest.length < (w ++ rest).length := by
    have := List.length_pos_iff.2 hw
    rw [List.length_append]
    omega
  have hprefix : Text.startsWith (w ++ rest) w = true :=
    List.isPrefixOf_iff_prefix.2 (List.prefix_append w rest)
  refine ⟨hlt, ?_⟩
  simp only [word, hprefix, if_true, List.drop_left]
  exact upTo?_eq hlt

theorem exists_valueWith (depth : Nat) : ∃ inner, value depth = valueWith inner := by
  cases depth <;> exact ⟨_, rfl⟩

section ValueWith

variable (value : Reader JsonValue)

theorem piece_null : Piece (valueWith value) (utf8 "null") null :=
  ⟨⟨110, _, rfl, rfl, by decide, by decide⟩, fun rest _ => reads_word (by decide) null rest⟩

theorem piece_string (t : Text) : Piece (valueWith value) (Json.quote t) (string t.repaired) :=
  ⟨⟨34, _, rfl, rfl, by decide, by decide⟩, fun rest _ => (reads_text t rest).map string⟩

theorem valueWith_numeral {b : UInt8} (hb : b = 45 ∨ Text.isDigit b = true) (t : Text) :
    valueWith value (b :: t) = numeral (b :: t) := by
  have other {c : UInt8} (hc : (c = 45 ∨ Text.isDigit c = true) → False) :
      (b :: t).head? ≠ some c := by
    rintro ⟨⟩
    exact hc hb
  unfold valueWith
  split
  · exact absurd ‹_› (other (by decide))
  · exact absurd ‹_› (other (by decide))
  · exact absurd ‹_› (other (by decide))
  · exact absurd ‹_› (other (by decide))
  · exact absurd ‹_› (other (by decide))
  · exact absurd ‹_› (other (by decide))
  · rfl

theorem IsNumeral.piece {t : Text} {v : JsonValue} (h : IsNumeral t v) :
    Piece (valueWith value) t v := by
  obtain ⟨b, u, e, hb⟩ := h.exists_cons
  constructor
  · have other {c : UInt8} (hc : (c = 45 ∨ Text.isDigit c = true) → False) : b ≠ c := by
      rintro rfl
      exact hc hb
    refine ⟨b, u, e, ?_, other (by decide), other (by decide)⟩
    simp [isBlank, other (c := 32) (by decide), other (c := 9) (by decide),
      other (c := 10) (by decide), other (c := 13) (by decide)]
  · intro rest hrest
    have hreads := h.reads rest hrest
    rw [e, List.cons_append] at hreads ⊢
    rw [Reads, valueWith_numeral value hb]
    exact hreads

theorem piece_array {ps : List (Text × JsonValue)} (hps : ∀ p ∈ ps, Piece value p.1 p.2) :
    Piece (valueWith value) (91 :: (joined (ps.map Prod.fst) ++ [93]))
      (array (ps.map Prod.snd)) := by
  refine ⟨⟨91, _, rfl, rfl, by decide, by decide⟩, fun rest _ => ?_⟩
  rw [List.cons_append, List.append_assoc, List.singleton_append]
  exact (reads_pieces (.inl rfl) hps rest).map array

theorem piece_object {ps : List (Text × Text × JsonValue)}
    (hps : ∀ p ∈ ps, Piece (field value) p.1 p.2) :
    Piece (valueWith value) (123 :: (joined (ps.map Prod.fst) ++ [125]))
      (object (ps.map Prod.snd)) := by
  refine ⟨⟨123, _, rfl, rfl, by decide, by decide⟩, fun rest _ => ?_⟩
  rw [List.cons_append, List.append_assoc, List.singleton_append]
  exact (reads_pieces (.inr rfl) hps rest).map object

end ValueWith

end JsonValue

namespace Json

open JsonValue (Piece joined)

/-! ### Whole texts -/

/-- Values are built up from their elements and fields. -/
@[elab_as_elim]
theorem induction {motive : Json → Prop} (null : motive .null) (integer : ∀ i, motive (.integer i))
    (real : ∀ x, motive (.real x)) (string : ∀ t, motive (.string t))
    (array : ∀ es, (∀ e ∈ es, motive e) → motive (.array es))
    (object : ∀ fs : List (Text × Json), (∀ f ∈ fs, motive f.2) → motive (.object fs)) (v : Json) :
    motive v := by
  refine @Json.rec motive (fun es => ∀ e ∈ es, motive e) (fun fs => ∀ f ∈ fs, motive f.2)
    (fun f => motive f.2) null integer real string array object ?_ ?_ ?_ ?_ ?_ v
  · exact fun _ h => absurd h List.not_mem_nil
  · exact fun e es he hes => List.forall_mem_cons.2 ⟨he, hes⟩
  · exact fun _ h => absurd h List.not_mem_nil
  · exact fun f fs hf hfs => List.forall_mem_cons.2 ⟨hf, hfs⟩
  · exact fun _ _ h => h

/-- A field as it is written. -/
def fieldText (f : Text × Json) : Text := quote f.1 ++ 58 :: f.2.compact

/-- What is written for a value does not depend on what follows. -/
def Splits (v : Json) : Prop := ∀ rest, v.compactThen rest = v.compact ++ rest

theorem compactMore_eq {es : List Json} (h : ∀ e ∈ es, e.Splits) (rest : Text) :
    compactMore es rest = (es.map compact).flatMap (44 :: ·) ++ rest := by
  induction es with
  | nil => rfl
  | cons e es ih =>
    obtain ⟨he, hes⟩ := List.forall_mem_cons.1 h
    rw [compactMore, he, ih hes, List.map_cons, List.flatMap_cons, List.append_assoc]
    rfl

theorem compactFields_eq {fs : List (Text × Json)} (h : ∀ f ∈ fs, f.2.Splits) (rest : Text) :
    compactFields fs rest = (fs.map fieldText).flatMap (44 :: ·) ++ rest := by
  induction fs with
  | nil => rfl
  | cons f fs ih =>
    obtain ⟨hf, hfs⟩ := List.forall_mem_cons.1 h
    rw [compactFields, hf, ih hfs, List.map_cons, List.flatMap_cons, List.append_assoc, fieldText,
      show utf8 "," = [44] from rfl, show utf8 ":" = [58] from rfl]
    simp only [List.append_assoc, List.cons_append, List.nil_append]

theorem compactThen_array {es : List Json} (h : ∀ e ∈ es, e.Splits) (rest : Text) :
    (array es).compactThen rest = 91 :: (joined (es.map compact) ++ 93 :: rest) := by
  cases es with
  | nil => rfl
  | cons e es =>
    obtain ⟨he, hes⟩ := List.forall_mem_cons.1 h
    rw [compactThen, he, compactMore_eq hes, List.map_cons, joined, List.append_assoc]
    rfl

theorem compactThen_object {fs : List (Text × Json)} (h : ∀ f ∈ fs, f.2.Splits) (rest : Text) :
    (object fs).compactThen rest = 123 :: (joined (fs.map fieldText) ++ 125 :: rest) := by
  cases fs with
  | nil => rfl
  | cons f fs =>
    obtain ⟨hf, hfs⟩ := List.forall_mem_cons.1 h
    rw [compactThen, hf, compactFields_eq hfs, List.map_cons, joined, fieldText,
      show utf8 "\x7b" = [123] from rfl, show utf8 ":" = [58] from rfl,
        show utf8 "\x7d" = [125] from rfl]
    simp only [List.append_assoc, List.cons_append, List.nil_append]

theorem splits (v : Json) : v.Splits := by
  induction v using Json.induction with
  | null => exact fun _ => rfl
  | integer i => exact fun rest => by rw [compact, compactThen, compactThen, List.append_nil]
  | real x => exact fun rest => by rw [compact, compactThen, compactThen, List.append_nil]
  | string t => exact fun rest => by rw [compact, compactThen, compactThen, List.append_nil]
  | array es ih =>
    intro rest
    rw [compact, compactThen_array ih, compactThen_array ih, List.cons_append, List.append_assoc]
    rfl
  | object fs ih =>
    intro rest
    rw [compact, compactThen_object ih, compactThen_object ih, List.cons_append, List.append_assoc]
    rfl

theorem compact_array (es : List Json) :
    (array es).compact = 91 :: (joined (es.map compact) ++ [93]) :=
  compactThen_array (fun e _ => e.splits) []

theorem compact_object (fs : List (Text × Json)) :
    (object fs).compact = 123 :: (joined (fs.map fieldText) ++ [125]) :=
  compactThen_object (fun f _ => f.2.splits) []

/-- What is read for a floating-point number: a null if it is not finite. -/
def realValue (x : Binary64) : JsonValue :=
  ((JsonValue.numeral (x.toText numberLayout)).map fun p => p.value).getD .null

mutual

/-- What is read for a value. -/
def value : Json → JsonValue
  | null => .null
  | integer i => .number i 0
  | real x => realValue x
  | string t => .string t.repaired
  | array es => .array (valueAll es)
  | object fs => .object (valueFields fs)

/-- What is read for the elements of a list. -/
def valueAll : List Json → List JsonValue
  | [] => []
  | e :: es => e.value :: valueAll es

/-- What is read for the fields of an object. -/
def valueFields : List (Text × Json) → List (Text × JsonValue)
  | [] => []
  | (name, v) :: fs => (name.repaired, v.value) :: valueFields fs

end

theorem valueAll_eq (es : List Json) : valueAll es = es.map value := by
  induction es with
  | nil => rfl
  | cons e es ih => rw [valueAll, ih, List.map_cons]

theorem valueFields_eq (fs : List (Text × Json)) :
    valueFields fs = fs.map fun f => (f.1.repaired, f.2.value) := by
  induction fs with
  | nil => rfl
  | cons f fs ih => rw [valueFields, ih, List.map_cons]

theorem realValue_of_isNumeral {x : Binary64} {v : JsonValue}
    (h : JsonValue.IsNumeral (x.toText numberLayout) v) : realValue x = v := by
  obtain ⟨hlt, hread⟩ : JsonValue.Reads JsonValue.numeral (x.toText numberLayout) v [] := by
    simpa using h.reads [] (fun b hb => by cases hb)
  simp [realValue, hread]

theorem piece_real (inner : Toml.Reader JsonValue) (x : Binary64) :
    Piece (JsonValue.valueWith inner) (x.toText numberLayout) (realValue x) := by
  cases x with
  | nan => exact JsonValue.piece_null inner
  | infinite negative => cases negative <;> exact JsonValue.piece_null inner
  | finite negative m e =>
    obtain ⟨a, k, h⟩ := JsonValue.exists_isNumeral negative m e
    rw [realValue_of_isNumeral h]
    exact h.piece inner

theorem length_le_joined {w : Text} {ws : List Text} (h : w ∈ ws) :
    w.length ≤ (joined ws).length := by
  cases ws with
  | nil => cases h
  | cons w' ws =>
    rw [joined, List.length_append]
    rcases List.mem_cons.1 h with rfl | h
    · exact Nat.le_add_right _ _
    · obtain ⟨us, vs, rfl⟩ := List.append_of_mem h
      simp only [List.flatMap_append, List.flatMap_cons, List.length_append, List.length_cons]
      omega

/-- **Every written value is read back**, wherever a value may stand. -/
theorem piece_compact (v : Json) (depth : Nat) (h : v.compact.length ≤ depth) :
    Piece (JsonValue.value depth) v.compact v.value := by
  induction v using Json.induction generalizing depth with
  | null =>
    obtain ⟨inner, e⟩ := JsonValue.exists_valueWith depth
    rw [e]
    exact JsonValue.piece_null inner
  | integer i =>
    obtain ⟨inner, e⟩ := JsonValue.exists_valueWith depth
    rw [e, compact, compactThen, List.append_nil]
    exact (JsonValue.isNumeral_ofInt i).piece inner
  | real x =>
    obtain ⟨inner, e⟩ := JsonValue.exists_valueWith depth
    rw [e, compact, compactThen, List.append_nil]
    exact piece_real inner x
  | string t =>
    obtain ⟨inner, e⟩ := JsonValue.exists_valueWith depth
    rw [e, compact, compactThen, List.append_nil]
    exact JsonValue.piece_string inner t
  | array es ih =>
    rw [compact_array, List.length_cons, List.length_append] at h
    obtain ⟨inner, rfl⟩ : ∃ inner, depth = inner + 1 := ⟨depth - 1, by omega⟩
    have hps : ∀ p ∈ es.map fun e => (e.compact, e.value),
        Piece (JsonValue.value inner) p.1 p.2 := by
      simp only [List.mem_map]
      rintro _ ⟨e, he, rfl⟩
      have := length_le_joined (List.mem_map_of_mem (f := compact) he)
      exact ih e he inner (by omega)
    have hpiece := JsonValue.piece_array _ hps
    rw [List.map_map, List.map_map] at hpiece
    rw [compact_array, value, valueAll_eq]
    exact hpiece
  | object fs ih =>
    rw [compact_object, List.length_cons, List.length_append] at h
    obtain ⟨inner, rfl⟩ : ∃ inner, depth = inner + 1 := ⟨depth - 1, by omega⟩
    have hps : ∀ p ∈ fs.map fun f => (fieldText f, f.1.repaired, f.2.value),
        Piece (JsonValue.field (JsonValue.value inner)) p.1 p.2 := by
      simp only [List.mem_map]
      rintro _ ⟨f, hf, rfl⟩
      have hlen := length_le_joined (List.mem_map_of_mem (f := fieldText) hf)
      rw [fieldText, List.length_append, List.length_cons] at hlen
      exact (ih f hf inner (by omega)).field f.1
    have hpiece := JsonValue.piece_object _ hps
    rw [List.map_map, List.map_map] at hpiece
    rw [compact_object, value, valueFields_eq]
    exact hpiece

/-- **A written value is a JSON text, and it is read back.** -/
theorem read?_compact (v : Json) : JsonValue.read? v.compact = some v.value := by
  have hpiece := v.piece_compact v.compact.length (Nat.le_refl _)
  have hskip : JsonValue.skipBlanks v.compact = v.compact := by
    obtain ⟨b, u, e, hb, -⟩ := hpiece.head
    rw [e, JsonValue.skipBlanks_cons hb]
  obtain ⟨hlt, hread⟩ :
    JsonValue.Reads (JsonValue.value v.compact.length) (JsonValue.skipBlanks v.compact)
      v.value [] := by
    rw [hskip]
    simpa using hpiece.reads [] (fun b hb => by cases hb)
  rw [JsonValue.read?, hread]
  rfl

end Json

end Scriptlet
