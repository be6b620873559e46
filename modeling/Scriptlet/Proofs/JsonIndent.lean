import Scriptlet.Proofs.Agenda
import Scriptlet.Proofs.JsonTree
import Scriptlet.Tree.Format

/-!
# Indented JSON

The indented text of a value is its text without white space, with spaces and line feeds put in
outside of strings. What is outside of strings is told byte by byte (`Place.next`): a string goes
from a quote to the next one, and a byte behind a backslash in it does not count. Every piece that
is written for a value leads from outside of strings to outside of strings again, and apart from
line breaks and the space behind a colon it is kept (`Turns`); so what holds for the pieces holds
for the value, at any depth (`Json.condenses`).
-/

namespace Scriptlet

open Rune (IsScalar)

namespace Json

/-! ### Deleting blanks -/

/-- Where a byte of a JSON text stands. -/
inductive Place where
  /-- Outside of strings. -/
  | outside
  /-- In a string. -/
  | inside
  /-- Right behind a backslash in a string. -/
  | escaped
  deriving DecidableEq

/-- The place behind a byte. -/
def Place.next : Place → UInt8 → Place
  | outside, b => if b = 34 then inside else outside
  | inside, b => if b = 34 then outside else if b = 92 then escaped else inside
  | escaped, _ => inside

/-- Is the byte a space or a line feed that stands outside of strings? -/
def Place.isBlank (p : Place) (b : UInt8) : Bool :=
  p = outside && (b = Text.space || b = Text.lineFeed)

/-- The text from a place on, without the spaces and line feeds outside of strings. -/
def condenseFrom : Place → Text → Text
  | _, [] => []
  | p, b :: t => if p.isBlank b then condenseFrom (p.next b) t else b :: condenseFrom (p.next b) t

/-- The text without the spaces and line feeds outside of its strings. -/
def condense (t : Text) : Text := condenseFrom .outside t

/-- From the place `p` on, `w` becomes `u`, and behind it is the place `q`. -/
def Turns (p : Place) (w u : Text) (q : Place) : Prop :=
  ∀ rest, condenseFrom p (w ++ rest) = u ++ condenseFrom q rest

section Turns

variable {p q r : Place} {w w' u u' : Text} {b : UInt8}

theorem Turns.nil (p : Place) : Turns p [] [] p := fun _ => rfl

theorem Turns.append (h : Turns p w u q) (h' : Turns q w' u' r) :
    Turns p (w ++ w') (u ++ u') r := by
  intro rest
  rw [List.append_assoc, h, h', List.append_assoc]

theorem Turns.keep (hb : p.isBlank b = false) (h : Turns (p.next b) w u q) :
    Turns p (b :: w) (b :: u) q := by
  intro rest
  rw [List.cons_append, condenseFrom, hb, h]
  rfl

theorem Turns.drop (hb : p.isBlank b = true) (h : Turns (p.next b) w u q) :
    Turns p (b :: w) u q := by
  intro rest
  rw [List.cons_append, condenseFrom, hb, h]
  rfl

/-- Bytes that are kept and do not lead away from a place. -/
theorem turns_of_forall (h : ∀ b ∈ w, p.isBlank b = false ∧ p.next b = p) : Turns p w w p := by
  induction w with
  | nil => exact .nil p
  | cons b w ih =>
    obtain ⟨⟨hb, hnext⟩, hw⟩ := List.forall_mem_cons.1 h
    refine .keep hb ?_
    rw [hnext]
    exact ih hw

theorem turns_flatMap {α : Type} {f : α → Text} {l : List α} (h : ∀ x ∈ l, Turns p (f x) (f x) p) :
    Turns p (l.flatMap f) (l.flatMap f) p := by
  induction l with
  | nil => exact .nil p
  | cons x l ih =>
    obtain ⟨hx, hl⟩ := List.forall_mem_cons.1 h
    exact hx.append (ih hl)

end Turns

/-! ### Strings -/

/-- Bytes that are neither a quote nor a backslash stay in a string. -/
theorem turns_inside {w : Text} (hquote : 34 ∉ w) (hslash : 92 ∉ w) :
    Turns .inside w w .inside := by
  refine turns_of_forall fun b hb => ⟨rfl, ?_⟩
  have h34 : b ≠ 34 := ne_of_mem_of_not_mem hb hquote
  have h92 : b ≠ 92 := ne_of_mem_of_not_mem hb hslash
  rw [Place.next, if_neg h34, if_neg h92]

theorem turns_escape {c : Nat} {e : Text} (h : escape? c = some e) : Turns .inside e e .inside := by
  -- a backslash and the byte behind it, then digits or nothing
  have escape {x : UInt8} {u : Text} (hquote : 34 ∉ u) (hslash : 92 ∉ u) :
      Turns .inside (92 :: x :: u) (92 :: x :: u) .inside :=
    .keep rfl (.keep rfl (turns_inside hquote hslash))
  have digit : ∀ d : Fin 16,
      (34 : UInt8) ≠ Text.hexDigit d.val ∧ (92 : UInt8) ≠ Text.hexDigit d.val := by decide
  unfold escape? at h
  split at h
  case h_8 =>
    simp only [Option.ite_none_right_eq_some, Option.some.injEq] at h
    rw [← h.2]
    refine escape (fun hmem => ?_) (fun hmem => ?_)
    · obtain ⟨d, hd⟩ := Text.exists_hexDigit_of_mem hmem
      exact (digit d).1 hd
    · obtain ⟨d, hd⟩ := Text.exists_hexDigit_of_mem hmem
      exact (digit d).2 hd
  all_goals
    cases h
    exact escape List.not_mem_nil List.not_mem_nil

/-- A character that is not escaped is no quote and no backslash, and has none in its bytes. -/
theorem turns_encode {c : Nat} (hc : IsScalar c) (h : escape? c = none) :
    Turns .inside (Rune.encode c) (Rune.encode c) .inside := by
  obtain ⟨-, h34, h92⟩ := JsonValue.plain_of_escape? h
  have other {b : UInt8} (hb : b.toNat < 0x80) (hne : c ≠ b.toNat) : b ∉ Rune.encode c :=
      fun hmem =>
    hne ((Rune.encode_eq_singleton_iff hc hb).1 (Rune.encode_eq_of_mem_ascii hc hb hmem))
  exact turns_inside (other (by decide) h34) (other (by decide) h92)

/-- For each rune of a text, the written form of a character stands in the string. -/
theorem exists_written {t w : Text} {r : Rune} (h : (r, w) ∈ Text.runes t) :
    ∃ c, IsScalar c ∧ stringRune r w = (escape? c).getD (Rune.encode c) := by
  induction t using Text.runeInduction with
  | nil =>
    rw [Text.runes_nil] at h
    cases h
  | scalar c t hc ih =>
    obtain ⟨r', rfl, hr, e⟩ := Text.runes_encode hc t
    rw [e, List.mem_cons] at h
    rcases h with h | h
    · obtain ⟨rfl, rfl⟩ := Prod.mk.inj h
      exact ⟨r.code, hc, JsonValue.stringRune_encode hr⟩
    · exact ih h
  | malformed b t hb ih =>
    rw [Text.runes_malformed hb, List.mem_cons] at h
    rcases h with h | h
    · obtain ⟨rfl, rfl⟩ := Prod.mk.inj h
      exact ⟨Rune.replacement, Rune.isScalar_replacement, rfl⟩
    · exact ih h

/-- **A string is kept as it is**, whatever characters it has. -/
theorem turns_quote (t : Text) : Turns .outside (quote t) (quote t) .outside := by
  have hbody : Turns .inside ((Text.runes t).flatMap fun r => stringRune r.1 r.2)
      ((Text.runes t).flatMap fun r => stringRune r.1 r.2) .inside := by
    refine turns_flatMap fun r hr => ?_
    obtain ⟨c, hc, hwritten⟩ := exists_written hr
    rw [hwritten]
    cases he : escape? c with
    | none => exact turns_encode hc he
    | some e => exact turns_escape he
  exact .keep rfl (hbody.append (.keep rfl (.nil _)))

/-! ### Other pieces -/

/-- Is the byte neither a quote nor one that may be deleted? -/
def isSolid (b : UInt8) : Bool := b != 34 && b != Text.space && b != Text.lineFeed

theorem turns_solid {w : Text} (h : w.all isSolid = true) : Turns .outside w w .outside := by
  refine turns_of_forall fun b hb => ?_
  have hsolid := List.all_eq_true.1 h b hb
  simp only [isSolid, Bool.and_eq_true, bne_iff_ne, ne_eq] at hsolid
  simp [Place.isBlank, Place.next, hsolid]

theorem isSolid_of_isDigit {b : UInt8} (h : Text.isDigit b = true) : isSolid b = true := by
  have := Text.isDigit_iff.1 h
  have other {c : UInt8} (hc : c.toNat < 48) : b ≠ c := by
    rintro rfl
    omega
  simp [isSolid, Text.space, Text.lineFeed, other (c := 34) (by decide),
    other (c := 32) (by decide), other (c := 10) (by decide)]

theorem all_isSolid_of_isNumeral {t : Text} {v : JsonValue} (h : JsonValue.IsNumeral t v) :
    t.all isSolid = true := by
  obtain ⟨negative, w, ds, p, e, hw, hds, hp, rfl, -⟩ := h
  have digits {ds : Text} (hds : ∀ b ∈ ds, Text.isDigit b = true) : ds.all isSolid = true :=
    List.all_eq_true.2 fun b hb => isSolid_of_isDigit (hds b hb)
  have hsign : (if negative then [45] else ([] : Text)).all isSolid = true := by
    cases negative <;> rfl
  have hfraction : (JsonValue.fractionText ds).all isSolid = true := by
    rw [JsonValue.fractionText]
    split
    · rfl
    · rw [List.all_cons, digits hds]
      rfl
  have hpower : p.all isSolid = true := by
    rcases hp with ⟨rfl, -⟩ | ⟨negative, es, hes, rfl, -⟩
    · rfl
    · rw [List.all_cons, List.all_cons, digits hes.2]
      cases negative <;> rfl
  rw [List.all_append, List.all_append, List.all_append, hsign, digits hw.digits.2,
    hfraction, hpower]
  rfl

theorem all_isSolid_real (x : Binary64) : (x.toText numberLayout).all isSolid = true := by
  cases x with
  | nan => rfl
  | infinite negative => cases negative <;> rfl
  | finite negative m e =>
    obtain ⟨a, k, h⟩ := JsonValue.exists_isNumeral negative m e
    exact all_isSolid_of_isNumeral h

/-- A line break is deleted, with the blanks behind it. -/
theorem turns_newLine (depth : Nat) : Turns .outside (newLine depth) [] .outside := by
  refine .drop rfl ?_
  induction 2 * depth with
  | zero => exact .nil _
  | succ n ih => exact .drop rfl ih

theorem turns_colon : Turns .outside (utf8 ": ") (utf8 ":") .outside :=
  .keep rfl (.drop rfl (.nil _))

/-- The closing of a list or an object stands on a line of its own. -/
theorem Turns.close {rest rest' : Text} (h : Turns .outside rest rest' .outside) (depth : Nat)
    (w : Text) (hw : w.all isSolid = true) :
    Turns .outside (newLine depth ++ w ++ rest) (w ++ rest') .outside :=
  ((turns_newLine depth).append (turns_solid hw)).append h

/-! ### Values -/

/-- Blanks are all that the indented text of a value has in addition, whatever follows. -/
def Condenses (v : Json) : Prop := ∀ depth {rest rest' : Text}, Turns .outside rest rest' .outside →
  Turns .outside (v.indentedThen depth rest) (v.compactThen rest') .outside

theorem turns_more {es : List Json} (h : ∀ e ∈ es, e.Condenses) (depth : Nat) {rest rest' : Text}
    (hrest : Turns .outside rest rest' .outside) :
    Turns .outside (indentedMore depth es rest) (compactMore es rest') .outside := by
  induction es with
  | nil => exact hrest
  | cons e es ih =>
    obtain ⟨he, hes⟩ := List.forall_mem_cons.1 h
    rw [indentedMore, compactMore, List.append_assoc]
    exact (turns_solid rfl).append ((turns_newLine depth).append (he depth (ih hes)))

theorem turns_fields {fs : List (Text × Json)} (h : ∀ f ∈ fs, f.2.Condenses) (depth : Nat)
    {rest rest' : Text} (hrest : Turns .outside rest rest' .outside) :
    Turns .outside (indentedFields depth fs rest) (compactFields fs rest') .outside := by
  induction fs with
  | nil => exact hrest
  | cons f fs ih =>
    obtain ⟨hf, hfs⟩ := List.forall_mem_cons.1 h
    rw [indentedFields, compactFields]
    simp only [List.append_assoc]
    exact (turns_solid rfl).append ((turns_newLine depth).append
      ((turns_quote f.1).append (turns_colon.append (hf depth (ih hfs)))))

/-- **The indented text of a value is its text without white space**, with blanks put in. -/
theorem condenses (v : Json) : v.Condenses := by
  induction v using Json.induction with
  | null => exact fun _ _ _ hrest => (turns_solid rfl).append hrest
  | integer i =>
    intro depth rest rest' hrest
    exact (turns_solid (all_isSolid_of_isNumeral (JsonValue.isNumeral_ofInt i))).append hrest
  | real x =>
    intro depth rest rest' hrest
    exact (turns_solid (all_isSolid_real x)).append hrest
  | string t =>
    intro depth rest rest' hrest
    exact (turns_quote t).append hrest
  | array es ih =>
    intro depth rest rest' hrest
    cases es with
    | nil => exact (turns_solid rfl).append hrest
    | cons e es =>
      obtain ⟨he, hes⟩ := List.forall_mem_cons.1 ih
      have hvalue := he (depth + 1) (turns_more hes (depth + 1) (hrest.close depth (utf8 "]") rfl))
      rw [indentedThen, compactThen, List.append_assoc]
      exact (turns_solid rfl).append ((turns_newLine _).append hvalue)
  | object fs ih =>
    intro depth rest rest' hrest
    cases fs with
    | nil => exact (turns_solid rfl).append hrest
    | cons f fs =>
      obtain ⟨hf, hfs⟩ := List.forall_mem_cons.1 ih
      have hvalue := hf (depth + 1)
        (turns_fields hfs (depth + 1) (hrest.close depth (utf8 "\x7d") rfl))
      simp only [indentedThen, compactThen, List.append_assoc] at hvalue ⊢
      exact (turns_solid rfl).append ((turns_newLine _).append
        ((turns_quote f.1).append (turns_colon.append hvalue)))

end Json

theorem Program.print_json (p : Program) : p.print (utf8 "json") =
    ((Node.program p).writable.map fun v => v.indented 0 ++
      [Text.lineFeed]).mapError Unwritable.message := rfl

/-- What is printed for a program as JSON, without its blanks, is what is written for it. -/
theorem Program.condense_print (p : Program) :
    Json.condense (p.toJson.indented 0 ++ [Text.lineFeed]) = p.toJson.compact := by
  have hvalue := p.toJson.condenses 0 (Json.Turns.nil .outside)
  have hline : Json.Turns .outside [Text.lineFeed] [] .outside := .drop rfl (.nil _)
  have hall := hvalue.append hline []
  rw [List.append_nil, List.append_nil] at hall
  rw [Json.condense, Json.indented, hall, Json.condenseFrom, List.append_nil, Json.compact]

end Scriptlet
