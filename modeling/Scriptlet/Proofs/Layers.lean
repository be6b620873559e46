import Scriptlet.Command.Flag
import Scriptlet.Proofs.Meaning
import Scriptlet.Proofs.Settings
import Scriptlet.Settings.Load

/-!
# Layers of settings

Each setting of a run is the one of its flag, else the one that the settings file gives it, else the
default, whatever the other settings are; and only what comes out at the end is looked at
(`assemble_layers`). What a flag gives is known from the arguments, and what the file gives from
what its text says (`Toml.Says`): a file that loads has nothing in it but integers and strings in
the tables of the four groups.
-/

namespace Scriptlet

/-- A setting by itself. -/
inductive Setting where
  /-- A number. -/
  | number (i : Int)
  /-- A text. -/
  | text (t : Text)
  deriving DecidableEq

/-- One of the settings. -/
def Settings.get (s : Settings) : Settings.Key → Setting
  | .maxDepth => .number s.maxDepth
  | .format => .text s.format
  | .out => .text s.out
  | .workers => .number s.workers
  | .cacheSize => .number s.cacheSize

/-- One of the settings of a layer, if the layer sets it. -/
def Layer.get? (l : Layer) : Settings.Key → Option Setting
  | .maxDepth => l.maxDepth.map .number
  | .format => l.format.map .text
  | .out => l.out.map .text
  | .workers => l.workers.map .number
  | .cacheSize => l.cacheSize.map .number

theorem Settings.get_override (s : Settings) (l : Layer) (k : Key) :
    (s.override l).get k = (l.get? k).getD (s.get k) := by
  obtain ⟨maxDepth, format, out, workers, cacheSize⟩ := l
  cases k with
  | maxDepth => cases maxDepth <;> rfl
  | format => cases format <;> rfl
  | out => cases out <;> rfl
  | workers => cases workers <;> rfl
  | cacheSize => cases cacheSize <;> rfl

/-! ### The file -/

/-- The setting that a value of a file stands for. -/
def Toml.Value.setting? : Toml.Value → Option Setting
  | .integer digits => some (.number (Settings.signedValue digits))
  | .string t => some (.text t)
  | _ => none

namespace Settings

open Toml (Fields Item Value)

/-- The setting is given a value, in the table of its group. -/
def Assigns (as : List Toml.Assignment) (k : Key) (v : Value) : Prop :=
  ([k.group.name], k.name, v) ∈ as

theorem Key.name_injective {k k' : Key} (h : k.name = k'.name) : k = k' := by
  revert h
  cases k <;> cases k' <;> decide

theorem Group.name_injective {g g' : Group} (h : g.name = g'.name) : g = g' := by
  revert h
  cases g <;> cases g' <;> decide

section

variable {k : Key} {g : Group} {l l' : Layer}

theorem get?_setInt (hk : k.isNumber = true) (i : Int) (l : Layer) (k' : Key) :
    (k.setInt i l).get? k' = if k' = k then some (.number i) else l.get? k' := by
  cases k <;> cases hk <;> cases k' <;> rfl

theorem get?_setText (hk : k.isNumber = false) (t : Text) (l : Layer) (k' : Key) :
    (k.setText t l).get? k' = if k' = k then some (.text t) else l.get? k' := by
  cases k <;> cases hk <;> cases k' <;> rfl

/-- A setting is taken from a value of its kind, and no other setting changes. -/
theorem setItem_eq_ok {i : Item} (h : setItem k i l = .ok l') :
    ∃ line v x, i = .value line v ∧ v.setting? = some x ∧
      ∀ k', l'.get? k' = if k' = k then some x else l.get? k' := by
  cases i with
  | table line headed fields => cases h
  | tables line elements => cases h
  | value line v =>
    cases v with
    | datetime => cases h
    | float digits => cases h
    | boolean b => cases h
    | array => cases h
    | integer digits =>
      rw [setItem] at h
      split_ifs at h with hk hfits
      obtain rfl := Except.ok.inj h
      exact ⟨line, _, _, rfl, rfl, get?_setInt hk _ l⟩
    | string t =>
      rw [setItem] at h
      split_ifs at h with hk
      obtain rfl := Except.ok.inj h
      exact ⟨line, _, _, rfl, rfl, get?_setText (Bool.eq_false_iff.2 hk) _ l⟩

theorem setField_eq_ok {f : Text × Item} (h : setField g l f = .ok l') :
    ∃ k : Key, k.group = g ∧ k.name = f.1 ∧ setItem k f.2 l = .ok l' := by
  rw [setField] at h
  split at h
  · rename_i k hfind
    have hk := List.find?_some hfind
    rw [Bool.and_eq_true, decide_eq_true_eq, decide_eq_true_eq] at hk
    exact ⟨k, hk.1, hk.2, h⟩
  · cases h

theorem setGroup_eq_ok {f : Text × Item} (h : setGroup l f = .ok l') :
    ∃ g : Group, ∃ line headed fields, g.name = f.1 ∧ f.2 = .table line headed fields ∧
      fields.foldlM (setField g) l = .ok l' := by
  rw [setGroup] at h
  split at h
  · cases h
  · rename_i g hfind
    have hg := List.find?_some hfind
    rw [decide_eq_true_eq] at hg
    dsimp only at h
    split at h
    · rename_i line headed fields hf
      exact ⟨g, line, headed, fields, hg, hf, h⟩
    · cases h
    · cases h

/-- The setting gets the value, if there is one, and stays as it is otherwise. -/
def Takes (k : Key) (v : Option Value) (l l' : Layer) : Prop :=
  match v with
  | some v => ∃ x, v.setting? = some x ∧ l'.get? k = some x
  | none => l'.get? k = l.get? k

/-- A later change leaves alone what was taken. -/
theorem Takes.trans {v : Option Value} {l'' : Layer} (h : Takes k v l l')
    (h' : Takes k none l' l'') : Takes k v l l'' := by
  cases v with
  | none => exact Eq.trans h' h
  | some v =>
    obtain ⟨x, hx, hl⟩ := h
    exact ⟨x, hx, Eq.trans h' hl⟩

theorem Takes.trans_of_none {v : Option Value} {l'' : Layer} (h : Takes k none l l')
    (h' : Takes k v l' l'') : Takes k v l l'' := by
  cases v with
  | none => exact Eq.trans h' h
  | some v => exact h'

/-- **A table of the file** sets the settings of its group that are in it, and no others. -/
theorem takes_foldlM_setField {fields : Fields} (hd : fields.Distinct)
    (h : fields.foldlM (setField g) l = .ok l') (k : Key) :
    Takes k (if k.group = g then fields.value? k.name else none) l l' := by
  induction fields generalizing l with
  | nil =>
    obtain rfl := Except.ok.inj h
    split_ifs <;> rfl
  | cons f rest ih =>
    obtain ⟨n, i⟩ := f
    obtain ⟨l₁, hfirst, hrest⟩ := exists_of_foldlM_cons h
    obtain ⟨k', rfl, rfl, hitem⟩ := setField_eq_ok hfirst
    obtain ⟨line, v, x, rfl, hx, hl₁⟩ := setItem_eq_ok hitem
    rw [Fields.Distinct, List.map_cons, List.nodup_cons] at hd
    have hlast := ih hd.2 hrest
    by_cases hk : k = k'
    · subst hk
      rw [if_pos rfl, Fields.value?, Fields.get?_eq_none hd.1] at hlast
      rw [if_pos rfl, Fields.value?, Fields.get?_cons_self]
      exact Takes.trans ⟨x, hx, by rw [hl₁, if_pos rfl]⟩ hlast
    · have hname : k.name ≠ k'.name := fun h => hk (Key.name_injective h)
      rw [Fields.value?, Fields.get?_cons_of_ne hname]
      exact Takes.trans_of_none (by rw [Takes, hl₁, if_neg hk]) hlast

/-- **A file** sets the settings that stand in the tables of their groups. -/
theorem takes_foldlM_setGroup {fs : Fields} (hd : fs.Distinct) (hinner : ∀ n, (fs.inner n).Distinct)
    (h : fs.foldlM setGroup l = .ok l') (k : Key) :
    Takes k (fs.valueIn? k.group.name k.name) l l' := by
  induction fs generalizing l with
  | nil =>
    obtain rfl := Except.ok.inj h
    rfl
  | cons f rest ih =>
    obtain ⟨n, i⟩ := f
    obtain ⟨l₁, hfirst, hrest⟩ := exists_of_foldlM_cons h
    obtain ⟨g, line, headed, fields, rfl, rfl, hfields⟩ := setGroup_eq_ok hfirst
    rw [Fields.Distinct, List.map_cons, List.nodup_cons] at hd
    have hnone : Fields.inner rest g.name = [] := by rw [Fields.inner, Fields.get?_eq_none hd.1]
    have hself : Fields.inner ((g.name, .table line headed fields) :: rest) g.name = fields := by
      rw [Fields.inner, Fields.get?_cons_self]
    have hother {n : Text} (hn : n ≠ g.name) :
        Fields.inner ((g.name, .table line headed fields) :: rest) n = Fields.inner rest n := by
      rw [Fields.inner, Fields.get?_cons_of_ne hn]
      rfl
    have hdistinct (n : Text) : (Fields.inner rest n).Distinct := by
      by_cases hn : n = g.name
      · rw [hn, hnone]
        exact List.nodup_nil
      · rw [← hother hn]
        exact hinner n
    have htable := takes_foldlM_setField (hself ▸ hinner g.name) hfields k
    have hlast := ih hd.2 hdistinct hrest
    by_cases hk : k.group = g
    · subst hk
      rw [Fields.valueIn?, hnone] at hlast
      rw [Fields.valueIn?, hself]
      rw [if_pos rfl] at htable
      exact htable.trans hlast
    · have hname : k.group.name ≠ g.name := fun h => hk (Group.name_injective h)
      rw [Fields.valueIn?, hother hname]
      rw [if_neg hk] at htable
      exact htable.trans_of_none hlast

theorem isScalar_of_setting? {v : Value} {x : Setting} (h : v.setting? = some x) : v.IsScalar := by
  cases v with
  | integer digits => trivial
  | string t => trivial
  | _ => cases h

theorem flat_of_foldlM_setField {fields : Fields} (h : fields.foldlM (setField g) l = .ok l') :
    ∀ f ∈ fields, f.2.Flat 0 := by
  induction fields generalizing l with
  | nil => exact List.forall_mem_nil _
  | cons f rest ih =>
    obtain ⟨l₁, hfirst, hrest⟩ := exists_of_foldlM_cons h
    obtain ⟨k, -, -, hitem⟩ := setField_eq_ok hfirst
    obtain ⟨line, v, x, hv, hx, -⟩ := setItem_eq_ok hitem
    refine List.forall_mem_cons.2 ⟨?_, ih hrest⟩
    rw [hv]
    exact isScalar_of_setting? hx

/-- **A file that loads** is tables of integers and strings. -/
theorem flat_of_foldlM_setGroup {fs : Fields} (h : fs.foldlM setGroup l = .ok l') : fs.Flat 1 := by
  have hitems : ∀ f ∈ fs, f.2.Flat 1 := by
    induction fs generalizing l with
    | nil => exact List.forall_mem_nil _
    | cons f rest ih =>
      obtain ⟨l₁, hfirst, hrest⟩ := exists_of_foldlM_cons h
      obtain ⟨g, line, headed, fields, -, hf, hfields⟩ := setGroup_eq_ok hfirst
      refine List.forall_mem_cons.2 ⟨?_, ih hrest⟩
      rw [hf]
      exact fun k i hi => flat_of_foldlM_setField hfields (k, i) (mem_of_lookup_eq_some hi)
  exact fun k i hi => hitems (k, i) (mem_of_lookup_eq_some hi)

end

/-- **What a file sets is what its text says.** -/
theorem get?_ofText {text : Text} {l : Layer} (h : Layer.ofText text = .ok l) :
    ∃ as, Toml.Says [] as (Text.repaired text) ∧
      ∀ k, (∀ v, Assigns as k v → ∃ x, v.setting? = some x ∧ l.get? k = some x) ∧
        ((∀ v, ¬ Assigns as k v) → l.get? k = none) := by
  rw [Layer.ofText] at h
  split at h
  · cases h
  · rename_i es hread
    split at h
    · cases h
    · rename_i fs hfs
      have hflat := flat_of_foldlM_setGroup h
      have htables (k : Text) : ¬ fs.HasTables k := by
        rintro ⟨line, elements, hk⟩
        exact Item.not_flat_tables 1 line elements (hflat k _ hk)
      obtain ⟨hdistinct, hinner, hvalue⟩ := Fields.valueIn?_ofEntries hfs htables
      refine ⟨_, Toml.says_of_read? hread (hflat.isPlain_of_ofEntries hfs), fun k => ?_⟩
      have htakes := takes_foldlM_setGroup hdistinct hinner h k
      constructor
      · intro v hv
        rwa [(hvalue _ _ v).2 hv] at htakes
      · intro hnot
        have hnone : fs.valueIn? k.group.name k.name = none := by
          rw [Option.eq_none_iff_forall_ne_some]
          intro v hv
          exact hnot v ((hvalue _ _ v).1 hv)
        rw [hnone] at htakes
        rw [show l.get? k = Layer.empty.get? k from htakes]
        cases k <;> rfl

/-! ### The flags -/

/-- The flag of a setting. -/
def Key.flag : Key → Flag
  | maxDepth => .maxDepth
  | format => .format
  | out => .out
  | workers => .workers
  | cacheSize => .cacheSize

end Settings

/-- The setting that the value of a flag stands for. -/
def FlagValue.setting? : FlagValue → Option Setting
  | .text t => some (.text t)
  | .number i => some (.number i)
  | .switch _ => none

/-- The value is of the flag's kind. -/
def Flag.Accepts (f : Flag) : FlagValue → Prop
  | .switch _ => f.isSwitch = true
  | .number _ => f.isSwitch = false ∧ f.isNumber = true
  | .text _ => f.isSwitch = false ∧ f.isNumber = false

theorem Flag.accepts_of_read {f : Flag} {x : Text} {y : FlagValue} (h : f.read x = .ok y) :
    f.Accepts y := by
  rw [read] at h
  by_cases hswitch : f.isSwitch = true
  · rw [if_pos hswitch] at h
    split_ifs at h
    · obtain rfl := Except.ok.inj h
      exact hswitch
    · obtain rfl := Except.ok.inj h
      exact hswitch
  · have hoff := Bool.eq_false_iff.2 hswitch
    rw [if_neg hswitch] at h
    by_cases hnumber : f.isNumber = true
    · rw [if_pos hnumber] at h
      split at h
      · cases h
      · split_ifs at h
        obtain rfl := Except.ok.inj h
        exact ⟨hoff, hnumber⟩
    · rw [if_neg hnumber] at h
      obtain rfl := Except.ok.inj h
      exact ⟨hoff, Bool.eq_false_iff.2 hnumber⟩

namespace Arguments

/-- Each flag has a value of its kind. -/
def IsTyped (a : Arguments) : Prop := ∀ d ∈ a.flags, d.1.Accepts d.2

/-- The flags at the front of arguments are typed. -/
theorem accepts_of_mem_scan (known : List Flag) (argv : List Text) :
    ∀ d ∈ (scan known argv).1, d.1.Accepts d.2 := by
  fun_induction scan known argv with
  | case1 | case2 | case3 | case4 | case5 | case6 | case9 | case10 => exact List.forall_mem_nil _
  | case7 _ _ _ f _ x y hread flags after hscan _ ih =>
    rw [hscan] at ih
    exact List.forall_mem_cons.2 ⟨Flag.accepts_of_read hread, ih⟩
  | case8 _ _ _ f _ hswitch flags after hscan _ ih =>
    rw [hscan] at ih
    exact List.forall_mem_cons.2 ⟨hswitch, ih⟩
  | case11 _ _ f _ _ x _ y hread flags after hscan _ ih =>
    rw [hscan] at ih
    exact List.forall_mem_cons.2 ⟨Flag.accepts_of_read hread, ih⟩

/-- Arguments that can be read are typed. -/
theorem isTyped_of_read {known : List Flag} {argv : List Text} {a : Arguments}
    (h : read known argv = .ok a) : a.IsTyped := by
  rw [read] at h
  dsimp only at h
  split at h
  · cases h
  · cases hafter : (scan known argv).2 with
    | error e =>
      rw [hafter] at h
      cases h
    | ok plain =>
      rw [hafter] at h
      obtain rfl := Except.ok.inj h
      exact accepts_of_mem_scan known argv

/-- A flag that is given has a value of its kind. -/
theorem IsTyped.accepts {a : Arguments} (h : a.IsTyped) {f : Flag} {x : FlagValue}
    (hx : a.value? f = some x) :
    f.Accepts x := h (f, x) (List.mem_reverse.1 (mem_of_lookup_eq_some hx))

section

variable {a : Arguments} {f : Flag}

theorem map_number? (h : a.IsTyped) (hf : f.isNumber = true) (hswitch : f.isSwitch = false) :
    (a.number? f).map Setting.number = (a.value? f).bind FlagValue.setting? := by
  rw [number?]
  cases hx : a.value? f with
  | none => rfl
  | some x =>
    have haccepts := h.accepts hx
    cases x with
    | number i => rfl
    | text t => cases hf.symm.trans haccepts.2
    | switch b => cases hswitch.symm.trans haccepts

theorem map_text? (h : a.IsTyped) (hf : f.isNumber = false) :
    (a.text? f).map Setting.text = (a.value? f).bind FlagValue.setting? := by
  rw [text?]
  cases hx : a.value? f with
  | none => rfl
  | some x =>
    have haccepts := h.accepts hx
    cases x with
    | text t => rfl
    | number i => cases hf.symm.trans haccepts.2
    | switch b => rfl

end

/-- **What the flags set is what was given for them**, the last value of each. -/
theorem get?_layer {a : Arguments} (h : a.IsTyped) (k : Settings.Key) :
    (∀ x, a.value? k.flag = some x → ∃ y, x.setting? = some y ∧ a.layer.get? k = some y) ∧
      (a.value? k.flag = none → a.layer.get? k = none) := by
  have hlayer : a.layer.get? k = (a.value? k.flag).bind FlagValue.setting? := by
    cases k with
    | maxDepth => exact map_number? h rfl rfl
    | format => exact map_text? h rfl
    | out => exact map_text? h rfl
    | workers => exact map_number? h rfl rfl
    | cacheSize => exact map_number? h rfl rfl
  have hswitch : k.flag.isSwitch = false := by cases k <;> rfl
  rw [hlayer]
  constructor
  · intro x hx
    have haccepts := h.accepts hx
    rw [hx]
    cases x with
    | number i => exact ⟨_, rfl, rfl⟩
    | text t => exact ⟨_, rfl, rfl⟩
    | switch b => cases hswitch.symm.trans haccepts
  · intro hnone
    rw [hnone]
    rfl

end Arguments

/-! ### All layers -/

/-- The settings file loads, if one is named. -/
def FileTree.Loads (t : FileTree) (file : Text) : Prop :=
  file ≠ [] → ∃ text l, t.read file = .ok text ∧ Layer.ofText text = .ok l

/-- What the settings file assigns: nothing if no file is named. Malformed bytes of its text stand
for `U+FFFD`. -/
def FileTree.Says (t : FileTree) (file : Text) (as : List Toml.Assignment) : Prop :=
  if file = [] then as = [] else ∃ text, t.read file = .ok text ∧
    Toml.Says [] as (Text.repaired text)

namespace Settings

/-- The format has a name, the limit on nesting is not negative, and there are workers and room in
the cache. -/
def Usable (s : Settings) : Prop :=
  s.format ∈ [utf8 "json", utf8 "spew", utf8 "text"] ∧ 0 ≤ s.maxDepth ∧ 1 ≤ s.workers ∧
    1 ≤ s.cacheSize

theorem invalid?_eq_none_iff {s : Settings} : s.invalid? = none ↔ s.Usable := by
  have hformat : (Format.ofName? s.format).isNone = false ↔
      s.format ∈ [utf8 "json", utf8 "spew", utf8 "text"] := by
    rw [Format.ofName?]
    split_ifs <;> simp_all
  rw [invalid?, Usable, ← hformat]
  split_ifs with hf hd hw hc
  · exact iff_of_false (by simp) fun h => by simp [h.1] at hf
  · exact iff_of_false (by simp) fun h => by omega
  · exact iff_of_false (by simp) fun h => by omega
  · exact iff_of_false (by simp) fun h => by omega
  · exact iff_of_true rfl ⟨Bool.eq_false_iff.2 hf, by omega, by omega, by omega⟩

/-- A layer that loads sets what its file assigns. -/
theorem exists_layer_of_loads {t : FileTree} {file : Text} (h : t.Loads file) :
    ∃ as l, t.Says file as ∧ t.settingsLayerIfNamed file = .ok l ∧
      ∀ k, (∀ v, Assigns as k v → ∃ x, v.setting? = some x ∧ l.get? k = some x) ∧
        ((∀ v, ¬ Assigns as k v) → l.get? k = none) := by
  by_cases hnamed : file = []
  · subst hnamed
    refine ⟨[], Layer.empty, rfl, rfl,
      fun k => ⟨fun v hv => (List.not_mem_nil hv).elim, fun _ => ?_⟩⟩
    cases k <;> rfl
  · obtain ⟨text, l, htext, hl⟩ := h hnamed
    obtain ⟨as, hsays, hget⟩ := get?_ofText hl
    refine ⟨as, l, ?_, ?_, hget⟩
    · rw [FileTree.Says, if_neg hnamed]
      exact ⟨text, htext, hsays⟩
    · rw [FileTree.settingsLayerIfNamed, if_neg (by simpa using hnamed),
        FileTree.settingsLayer, htext]
      simp only [hl]

/-- **Layers override one another setting by setting.** Each setting is the one of its flag if the
flag is given, else the one that the text of the file gives it, else the default. The settings that
come out are the settings of the run exactly if they can be used. -/
theorem assemble_layers {known : List Flag} {argv : List Text} {own : Arguments}
    (hown : Arguments.read known argv = .ok own) {t : FileTree} {file : Text} (hfile : t.Loads file)
    (processors : Int) :
    ∃ as, t.Says file as ∧ ∃ s : Settings,
      (∀ k, (∀ x, own.value? k.flag = some x → x.setting? = some (s.get k)) ∧
        (own.value? k.flag = none → (∀ v, Assigns as k v → v.setting? = some (s.get k)) ∧
          ((∀ v, ¬ Assigns as k v) → s.get k = (default processors).get k))) ∧
      (s.Usable → assemble processors t file own.layer = .ok s) ∧
      (¬ s.Usable → ∃ i, assemble processors t file own.layer = .error (.invalid i)) := by
  obtain ⟨as, l, hsays, hlayer, hfileGet⟩ := exists_layer_of_loads hfile
  have hflags := Arguments.get?_layer (Arguments.isTyped_of_read hown)
  refine ⟨as, hsays, ((default processors).override l).override own.layer,
    fun k => ⟨?_, ?_⟩, ?_, ?_⟩
  · intro x hx
    obtain ⟨y, hy, hget⟩ := (hflags k).1 x hx
    rw [get_override, hget, hy]
    rfl
  · intro hnone
    rw [get_override, (hflags k).2 hnone, Option.getD_none, get_override]
    constructor
    · intro v hv
      obtain ⟨x, hx, hget⟩ := (hfileGet k).1 v hv
      rw [hget, hx]
      rfl
    · intro hnot
      rw [(hfileGet k).2 hnot]
      rfl
  · intro husable
    rw [assemble, hlayer]
    simp only
    rw [validated, invalid?_eq_none_iff.2 husable]
  · intro husable
    rw [assemble, hlayer]
    simp only
    rw [validated]
    cases hinvalid : (((default processors).override l).override own.layer).invalid? with
    | none => exact absurd (invalid?_eq_none_iff.1 hinvalid) husable
    | some i => exact ⟨i, rfl⟩

/-- A file with an inline table, its groups out of order, one of them left out, and a cache without
room. -/
def layeredText : Text :=
  utf8 "Output = \x7b Out = \"x\" \x7d # a name\n[Watch]\nCacheSize = 0\n[Parser]\nMaxDepth = 9\n"

/-- The file of that text alone. -/
def layeredTree : FileTree := ⟨[(utf8 "c", .file layeredText)], []⟩

theorem assemble_layers_overridden : ∃ own as s,
    Arguments.read [.maxDepth, .cacheSize] [utf8 "--cachesize=7"] = .ok own ∧
      layeredTree.Loads (utf8 "c") ∧
      layeredTree.Says (utf8 "c") as ∧
        (∃ v, Assigns as .maxDepth v ∧ v.setting? = some (.number 9)) ∧
      assemble 4 layeredTree (utf8 "c") own.layer = .ok s ∧ s.get .maxDepth = .number 9 ∧
      s.get .out = .text (utf8 "x") ∧ s.get .cacheSize = .number 7 ∧
        s.get .workers = .number 4 := by
  obtain ⟨own, hown, hflags, hlayer⟩ : ∃ own : Arguments,
      Arguments.read [.maxDepth, .cacheSize] [utf8 "--cachesize=7"] = .ok own ∧
        own.flags = [(.cacheSize, .number 7)] ∧
          own.layer = { Layer.empty with cacheSize := some 7 } :=
    ⟨_, rfl, rfl, rfl⟩
  obtain ⟨l, hl⟩ : ∃ l, Layer.ofText layeredText = .ok l := by
    cases h : Layer.ofText layeredText with
    | ok l => exact ⟨l, rfl⟩
    | error e =>
      have hok : (Layer.ofText layeredText).toOption.isSome = true := by decide +kernel
      rw [h] at hok
      cases hok
  have hloads : layeredTree.Loads (utf8 "c") := fun _ => ⟨layeredText, l, rfl, hl⟩
  obtain ⟨as, hsays, s, hget, husable, hunusable⟩ := assemble_layers hown hloads 4
  have hresult : (assemble 4 layeredTree (utf8 "c") own.layer).toOption =
      some ⟨9, utf8 "json", utf8 "x", 4, 7⟩ := by
    rw [hlayer]
    decide +kernel
  have hs : assemble 4 layeredTree (utf8 "c") own.layer = .ok s := by
    by_cases h : s.Usable
    · exact husable h
    · obtain ⟨i, hi⟩ := hunusable h
      rw [hi] at hresult
      cases hresult
  rw [hs] at hresult
  obtain rfl := Option.some.inj hresult
  refine ⟨own, as, _, hown, hloads, hsays, ?_, hs, rfl, rfl, rfl, rfl⟩
  have hnone : own.value? .maxDepth = none := by
    rw [Arguments.value?, hflags]
    rfl
  obtain ⟨hfile, hdefault⟩ := (hget .maxDepth).2 hnone
  refine Classical.byContradiction fun hnot => ?_
  have hno (v : Toml.Value) : ¬ Assigns as .maxDepth v := fun hv => hnot ⟨v, hv, hfile v hv⟩
  exact absurd (hdefault hno) (by decide)

end Settings

end Scriptlet
