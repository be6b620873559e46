import Scriptlet.Proofs.Tables
import Scriptlet.Settings.Load

/-!
# Settings that are written down and read again

Settings are written as four tables. If they can be used, their numbers and the name of the format
are read back as they are; so everything depends on the output file. If its name is portable, the
file gives exactly the settings that were written. If it is not, what was written is no TOML
(`Settings.load_dump`).
-/

namespace Scriptlet

open Text (isWellFormed_append)
open Toml (IsKey Line Fields)

namespace Settings

/-! ### The tables -/

/-- The numbers are of 64 bits. -/
def Fits (s : Settings) : Prop := ∀ i ∈ [s.maxDepth, s.workers, s.cacheSize], Integer.fits i = true

instance (s : Settings) : Decidable s.Fits :=
  inferInstanceAs (Decidable (∀ i ∈ [s.maxDepth, s.workers, s.cacheSize], Integer.fits i = true))

/-- The layer that sets all settings; an output file only if there is one. -/
def layer (s : Settings) : Layer :=
  ⟨some s.maxDepth, some s.format, if s.out.isEmpty then none else some s.out, some s.workers,
    some s.cacheSize⟩

theorem override_layer (s : Settings) (processors : Int) :
    (default processors).override s.layer = s := by
  obtain ⟨maxDepth, format, out, workers, cacheSize⟩ := s
  cases out <;> rfl

theorem override_empty (s : Settings) : s.override Layer.empty = s := rfl

theorem isKey_group (g : Group) : IsKey g.name := by
  cases g <;> exact ⟨by decide, List.all_eq_true.1 (by decide)⟩

theorem isKey_key (k : Key) : IsKey k.name := by
  cases k <;> exact ⟨by decide, List.all_eq_true.1 (by decide)⟩

/-- A line with a number. -/
def numberLine (k : Key) (n : Nat) : Line where
  key := k.name
  text := Text.ofNat n
  value := .integer (Text.ofNat n)
  isKey := isKey_key k
  begins := by
    obtain ⟨hne, hdigits⟩ := Text.isDigits_ofNat n
    obtain ⟨b, ds, e⟩ := List.exists_cons_of_ne_nil hne
    have hb := Rule.isDigit_toNat (hdigits b (by rw [e]; exact List.mem_cons_self))
    refine ⟨b, ds, e, ?_⟩
    simp only [Toml.isSpace, Bool.or_eq_false_iff, decide_eq_false_iff_not, ← UInt8.toNat_inj]
    simp only [UInt8.reduceToNat]
    omega
  reads _ depth u := Toml.reads_ofNat n depth false k.name u

/-- A line with a text. -/
def textLine (k : Key) (t : Text) (ht : t.isPortable = true) : Line where
  key := k.name
  text := Text.quoted t
  value := .string t
  isKey := isKey_key k
  begins := ⟨34, _, rfl, rfl⟩
  reads total depth u := by
    have h := Toml.value_quoted total depth false k.name t u
    rwa [if_pos ht] at h

/-- The table of a group. -/
def table (g : Group) (lines : List Line) : Toml.Table := ⟨g.name, lines, isKey_group g⟩

/-- The numbers of settings that can be used are natural numbers, and the format has one of the
three names. -/
theorem exists_of_valid {s : Settings} (h : s.invalid? = none) :
    ∃ depth workers size : Nat, s.maxDepth = depth ∧ s.workers = workers ∧ s.cacheSize = size ∧
      (Format.ofName? s.format).isSome = true := by
  rw [invalid?] at h
  split_ifs at h with hformat hdepth hworkers hsize
  refine ⟨s.maxDepth.toNat, s.workers.toNat, s.cacheSize.toNat, ?_, ?_, ?_, ?_⟩
  · omega
  · omega
  · omega
  · rw [Option.isSome_iff_ne_none]
    simpa using hformat

theorem isPortable_format {t : Text} (h : (Format.ofName? t).isSome = true) :
    t.isPortable = true := by
  rw [Format.ofName?] at h
  split_ifs at h with hjson hspew htext
  · rw [hjson]
    decide +kernel
  · rw [hspew]
    decide +kernel
  · rw [htext]
    decide +kernel
  · cases h

theorem ofInt_natCast (n : Nat) : Text.ofInt (n : Int) = Text.ofNat n := by
  rw [Text.ofInt, if_neg (by omega), Int.natAbs_natCast]

/-- Settings with natural numbers and portable texts. -/
structure Portable where
  /-- The limit on nesting. -/
  depth : Nat
  /-- The number of workers. -/
  workers : Nat
  /-- The size of the cache. -/
  size : Nat
  /-- The format. -/
  format : Text
  /-- The output file. -/
  out : Text
  format_isPortable : format.isPortable = true
  out_isPortable : out.isPortable = true

namespace Portable

variable (p : Portable)

/-- The settings themselves. -/
def settings : Settings := ⟨p.depth, p.format, p.out, p.workers, p.size⟩

/-- The line of the output file, if there is one. -/
def outLines : List Line := if p.out.isEmpty then [] else [textLine .out p.out p.out_isPortable]

/-- The tables that are written. -/
def tables : List Toml.Table :=
  [table .parser [numberLine .maxDepth p.depth],
    table .output (textLine .format p.format p.format_isPortable :: p.outLines),
    table .check [numberLine .workers p.workers], table .watch [numberLine .cacheSize p.size]]

theorem writtenLines_outLines :
    Toml.writtenLines p.outLines = if p.out.isEmpty then []
      else utf8 "\nOut = " ++ Text.quoted p.out := by
  rw [outLines]
  split
  · rfl
  · rw [Toml.writtenLines_cons, Toml.writtenLines_nil, List.append_nil]
    rfl

theorem dump_settings : p.settings.dump = Toml.document p.tables := by
  simp only [dump, settings, writtenLines_outLines, ofInt_natCast, tables, Toml.document,
    Toml.Table.written, table, Toml.writtenLines_cons, Toml.writtenLines_nil, Line.written,
    Toml.line, List.append_assoc,
    List.cons_append, List.append_nil]
  rfl

theorem nodup_names : (p.tables.map Toml.Table.name).Nodup :=
  (by decide : [Group.parser.name, Group.output.name, Group.check.name, Group.watch.name].Nodup)

theorem nodup_keys : ∀ t ∈ p.tables, (t.lines.map Line.key).Nodup := by
  have output : List.Sublist (p.outLines.map Line.key) [Key.out.name] := by
    rw [outLines]
    split
    · exact List.nil_sublist _
    · exact List.Sublist.refl _
  have keys : ([Key.format.name] ++ p.outLines.map Line.key).Nodup :=
    (by decide : [Key.format.name, Key.out.name].Nodup).sublist (output.cons_cons _)
  have one (k : Key) : [k.name].Nodup := List.pairwise_singleton _ _
  refine List.forall_mem_cons.2 ⟨one .maxDepth, List.forall_mem_cons.2 ⟨keys, ?_⟩⟩
  exact List.forall_mem_cons.2 ⟨one .workers, List.forall_mem_singleton.2 (one .cacheSize)⟩

end Portable

/-- Settings that can be used are portable if their output file is. -/
theorem exists_portable {s : Settings} (valid : s.invalid? = none)
    (hout : s.out.isPortable = true) : ∃ p : Portable, p.settings = s := by
  obtain ⟨depth, workers, size, hdepth, hworkers, hsize, hformat⟩ := exists_of_valid valid
  refine ⟨⟨depth, workers, size, s.format, s.out, isPortable_format hformat, hout⟩, ?_⟩
  rw [Portable.settings, ← hdepth, ← hworkers, ← hsize]

/-! ### What the tables set -/

theorem signedValue_ofNat (n : Nat) : signedValue (Text.ofNat n) = n := by
  obtain ⟨hne, hdigits⟩ := Text.isDigits_ofNat n
  have hsign {b : UInt8} {ds : Text} (e : Text.ofNat n = b :: ds) : 48 ≤ b.toNat :=
    (Rule.isDigit_toNat (hdigits b (by rw [e]; exact List.mem_cons_self))).1
  unfold signedValue
  split
  · rename_i e
    exact absurd (hsign e) (by decide)
  · rename_i e
    exact absurd (hsign e) (by decide)
  · rw [digitsValue_ofNat]

theorem setItem_number {k : Key} (hk : k.isNumber = true) {n : Nat} (hn : Integer.fits n = true)
    (line : Nat) (l : Layer) :
    setItem k (.value line (.integer (Text.ofNat n))) l = .ok (k.setInt n l) := by
  rw [setItem, if_pos hk, signedValue_ofNat, if_pos hn]

theorem setItem_text {k : Key} (hk : k.isNumber = false) (t : Text) (line : Nat) (l : Layer) :
    setItem k (.value line (.string t)) l = .ok (k.setText t l) := by
  rw [setItem, if_neg (by simp [hk])]

theorem setField_name (k : Key) (l : Layer) (i : Toml.Item) :
    setField k.group l (k.name, i) = setItem k i l := by
  cases k <;> rfl

theorem setGroup_name (g : Group) (l : Layer) (line : Nat) (headed : Bool) (fs : Fields) :
    setGroup l (g.name, .table line headed fs) = fs.foldlM (setField g) l := by
  cases g <;> rfl

/-- A field with a number sets it. -/
theorem setField_numberLine {k : Key} (hk : k.isNumber = true) {n : Nat}
    (hn : Integer.fits n = true) (f : Text × Toml.Item) (hf : (numberLine k n).IsField f)
    (l : Layer) :
    setField k.group l f = .ok (k.setInt n l) := by
  obtain ⟨line, rfl⟩ := hf
  rw [← setItem_number hk hn line]
  exact setField_name k l _

/-- A field with a text sets it. -/
theorem setField_textLine {k : Key} (hk : k.isNumber = false) {t : Text} (ht : t.isPortable = true)
    (f : Text × Toml.Item) (hf : (textLine k t ht).IsField f) (l : Layer) :
    setField k.group l f = .ok (k.setText t l) := by
  obtain ⟨line, rfl⟩ := hf
  rw [← setItem_text hk t line]
  exact setField_name k l _

section

variable {α β : Type} {R : α → β → Prop} {set : Layer → β → Except Problem Layer}

/-- Whatever stands for the items of a list, setting one after the other does `φ`. -/
def Sets (R : α → β → Prop) (set : Layer → β → Except Problem Layer) (as : List α)
    (φ : Layer → Layer) : Prop :=
  ∀ fs, List.Forall₂ R as fs → ∀ l, fs.foldlM set l = .ok (φ l)

theorem Sets.nil : Sets R set [] id := by
  intro fs hfs l
  rw [List.forall₂_nil_left_iff.1 hfs]
  rfl

theorem Sets.cons {a : α} {as : List α} {φ ψ : Layer → Layer}
    (ha : ∀ f, R a f → ∀ l, set l f = .ok (φ l)) (has : Sets R set as ψ) :
    Sets R set (a :: as) (ψ ∘ φ) := by
  intro fs hfs l
  obtain ⟨f, rest, hf, hrest, rfl⟩ := List.forall₂_cons_left_iff.1 hfs
  rw [List.foldlM_cons, ha f hf l]
  exact has rest hrest (φ l)

end

/-- A table sets what its lines set. -/
theorem setGroup_table {g : Group} {lines : List Line} {φ : Layer → Layer}
    (h : Sets Line.IsField (setField g) lines φ) :
    ∀ f, (table g lines).IsField f → ∀ l, setGroup l f = .ok (φ l) := by
  rintro f ⟨line, fields, rfl, hfields⟩ l
  rw [← h fields hfields l]
  exact setGroup_name g l line true fields

/-- The tables of portable settings set all of them. -/
theorem Portable.sets_tables (p : Portable) (hfits : p.settings.Fits) {fields : Fields}
    (h : List.Forall₂ Toml.Table.IsField p.tables fields) :
    fields.foldlM setGroup Layer.empty = .ok p.settings.layer := by
  have number {k : Key} (hk : k.isNumber = true) {n : Nat}
      (hn : (n : Int) ∈ [(p.depth : Int), p.workers, p.size]) :=
    setGroup_table (.cons (setField_numberLine hk (hfits n hn)) .nil)
  have out : Sets Line.IsField (setField .output) p.outLines
      fun l => { l with out := if p.out.isEmpty then l.out else some p.out } := by
    rw [outLines]
    split
    · exact .nil
    · exact .cons (setField_textLine (k := .out) rfl p.out_isPortable) .nil
  have output := setGroup_table
    (.cons (setField_textLine (k := .format) rfl p.format_isPortable) out)
  have parser := number (k := .maxDepth) rfl (n := p.depth) (by simp)
  have check := number (k := .workers) rfl (n := p.workers) (by simp)
  have watch := number (k := .cacheSize) rfl (n := p.size) (by simp)
  exact Sets.cons parser (.cons output (.cons check (.cons watch .nil))) fields h Layer.empty

/-! ### Reading what was written -/

theorem isAscii_ofInt (i : Int) : (Text.ofInt i).isAscii = true := by
  have hdigits := (Text.isDigits_ofNat i.natAbs).isAscii
  rw [Text.ofInt]
  split
  · simpa [Text.isAscii] using hdigits
  · exact hdigits

theorem isWellFormed_dump (s : Settings) : s.dump.isWellFormed = true := by
  have fixed {t : Text} (h : t.isAscii = true) : t.isWellFormed = true :=
      Text.isWellFormed_of_isAscii h
  have number (i : Int) : (Text.ofInt i).isWellFormed = true := fixed (isAscii_ofInt i)
  have format : (Text.quoted s.format).isWellFormed = true := Text.isWellFormed_quoted s.format
  have out : Text.isWellFormed
      (if s.out.isEmpty then [] else utf8 "\nOut = " ++ Text.quoted s.out) = true := by
    split
    · exact Text.isWellFormed_nil
    · exact isWellFormed_append (fixed rfl) (Text.isWellFormed_quoted s.out)
  -- from the last table to the first
  rw [dump]
  refine isWellFormed_append ?_ (fixed rfl)
  refine isWellFormed_append (isWellFormed_append ?_ (fixed rfl)) (number s.cacheSize)
  refine isWellFormed_append (isWellFormed_append ?_ (fixed rfl)) (number s.workers)
  refine isWellFormed_append (isWellFormed_append (isWellFormed_append ?_ (fixed rfl)) format) out
  exact isWellFormed_append (fixed rfl) (number s.maxDepth)

/-- What was written needs no repair. -/
theorem read?_dump (s : Settings) :
    Toml.read? s.dump = Toml.expressions (Toml.breaks s.dump) s.dump := by
  rw [Toml.read?, Text.repaired_of_isWellFormed s.isWellFormed_dump]

/-- **Portable settings are read back**: what was written sets all of them. -/
theorem Portable.ofText_dump (p : Portable) (hfits : p.settings.Fits) :
    Layer.ofText p.settings.dump = .ok p.settings.layer := by
  obtain ⟨ess, hmakes, hread⟩ := Toml.expressions_document (Toml.breaks p.settings.dump) p.tables
  obtain ⟨fields, hfields, hof⟩ := Toml.ofEntries_flatten p.nodup_names p.nodup_keys hmakes
  rw [← dump_settings, ← read?_dump] at hread
  rw [Layer.ofText, hread]
  simp only [hof]
  exact p.sets_tables hfits hfields

/-- The text before an output file and after it. -/
theorem dump_eq_append {s : Settings} {depth : Nat} (hdepth : s.maxDepth = depth)
    (hformat : s.format.isPortable = true) (hout : s.out.isEmpty = false) :
    ∃ u, s.dump = (table .parser [numberLine .maxDepth depth]).written ++
      Text.lineFeed :: Text.lineFeed ::
      ((table .output [textLine .format s.format hformat]).written ++
        Text.lineFeed :: (Toml.line Key.out.name (Text.quoted s.out) ++ Text.lineFeed :: u)) := by
  refine ⟨utf8 "\n[Check]\nWorkers = " ++ Text.ofInt s.workers ++
    utf8 "\n\n[Watch]\nCacheSize = " ++
    Text.ofInt s.cacheSize ++ utf8 "\n", ?_⟩
  simp only [dump, hdepth, hout, ofInt_natCast, Bool.false_eq_true, if_false,
    Toml.Table.written, table, Toml.writtenLines_cons, Toml.writtenLines_nil, Line.written,
    Toml.line, List.append_assoc, List.cons_append,
    List.append_nil]
  rfl

/-- **An output file that is not portable cannot be read**, and with it nothing that was written. -/
theorem ofText_dump_of_not_portable {s : Settings} (valid : s.invalid? = none)
    (hout : s.out.isPortable = false) : Layer.ofText s.dump = .error .notToml := by
  obtain ⟨depth, _, _, hdepth, -, -, hformat⟩ := exists_of_valid valid
  have hne : s.out.isEmpty = false := by
    rw [Bool.eq_false_iff, ne_eq, List.isEmpty_iff]
    rintro h
    rw [h, Text.isPortable_nil] at hout
    cases hout
  obtain ⟨u, hdump⟩ := dump_eq_append hdepth (isPortable_format hformat) hne
  have hpair : Toml.pair (Toml.breaks s.dump)
      (Toml.line Key.out.name (Text.quoted s.out) ++ Text.lineFeed :: u) = none := by
    refine Toml.pair_eq_none (isKey_key .out) ⟨34, _, rfl, rfl⟩ fun depth => ?_
    have h := Toml.value_quoted (Toml.breaks s.dump) depth false Key.out.name s.out u
    rwa [if_neg (by simp [hout])] at h
  have hread : Toml.read? s.dump = none := by
    rw [read?_dump]
    generalize Toml.breaks s.dump = total at hpair ⊢
    rw [hdump]
    exact Toml.Table.expressions_table_eq_none _ _
      (Toml.Table.expressions_eq_none _ (isKey_key .out) hpair)
  rw [Layer.ofText, hread]

/-- **A file with settings as they were written**: loaded over the defaults, it gives these settings
again if the output file is portable. If it is not, the file is no TOML. -/
theorem load_dump {s : Settings} (valid : s.invalid? = none) (fits : s.Fits) (processors : Int)
    {t : FileTree} {p : Text} (hp : p.isEmpty = false) (hread : t.read p = .ok s.dump) :
    assemble processors t p Layer.empty =
      if s.out.isPortable then .ok s else .error (.content p .notToml) := by
  rw [assemble, FileTree.settingsLayerIfNamed, if_neg (by simp [hp]), FileTree.settingsLayer, hread]
  cases hout : s.out.isPortable with
  | true =>
    obtain ⟨q, rfl⟩ := exists_portable valid hout
    simp only [q.ofText_dump fits, override_layer, override_empty, validated, valid, if_true]
  | false =>
    simp only [ofText_dump_of_not_portable valid hout, Bool.false_eq_true, if_false]

/-- Settings whose output file is named with quotes, a backslash, the end of a line, a letter beyond
ASCII, and a character that is not printed. -/
def oddName : Settings :=
  ⟨0, utf8 "text", utf8 "a \"b\"\\\n\u00e9\u200b", 3, 9223372036854775807⟩

theorem load_dump_oddName :
    oddName.invalid? = none ∧ oddName.out.isPortable = true ∧
      assemble 8 ⟨[(utf8 "f", .file oddName.dump)], []⟩ (utf8 "f") Layer.empty = .ok oddName := by
  have valid : oddName.invalid? = none := rfl
  have portable : oddName.out.isPortable = true := by decide +kernel
  have fits : oddName.Fits := by decide
  refine ⟨valid, portable, ?_⟩
  rw [load_dump valid fits 8 rfl rfl, if_pos portable]

/-- Settings whose output file is named with a bell. -/
def bell : Settings := ⟨256, utf8 "json", [7], 4, 1024⟩

/-- The bell is written as an escape that TOML does not have. -/
theorem not_loaded_bell :
    bell.invalid? = none ∧
      bell.dump = utf8 "[Parser]\nMaxDepth = 256\n\n[Output]\nFormat = \"json\"\nOut = \"\\a\"" ++
        utf8 "\n\n[Check]\nWorkers = 4\n\n[Watch]\nCacheSize = 1024\n" ∧
      Layer.ofText bell.dump = .error .notToml := by
  have valid : bell.invalid? = none := rfl
  refine ⟨valid, by decide +kernel, ofText_dump_of_not_portable valid (by decide +kernel)⟩

end Settings

end Scriptlet
