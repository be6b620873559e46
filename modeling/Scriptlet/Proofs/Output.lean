import Scriptlet.Command
import Scriptlet.Proofs.FileTree
import Scriptlet.Proofs.Formats
import Scriptlet.Proofs.Settings

/-!
# Output files

A run of `ast` or `dumpconfig` that succeeds puts what it prints into one file and leaves the
others; one that fails leaves all files as they are (`files_of_run`), with one exception. An output
file is emptied when it is opened, and after that only one thing can go wrong: the tree may be too
deep for JSON. Then the run fails, and the file is left empty (`emptied_nestedCalls`). This takes a
limit on nesting above 3331. The settings are printed before their file is opened, so `dumpconfig`
has no such case.

Asked for help, both commands touch no file.
-/

namespace Scriptlet

namespace FileTree

/-- The path, if there is one, can be opened for writing. -/
def Opens (t : FileTree) (path : Option Text) : Prop :=
  ∀ p, path = some p → ∃ names, t.target p = .ok names

variable {t : FileTree} {path : Text}

theorem opens_none : t.Opens none := by
  intro p h
  cases h

theorem opens_some : t.Opens (some path) ↔ ∃ names, t.target path = .ok names := by
  constructor
  · intro h
    exact h path rfl
  · intro h p hp
    rwa [← Option.some.inj hp]

end FileTree

namespace Outcome

/-- The file that a path stands for where the empty path stands for none. -/
def destination? (path : Text) : Option Text := if path.isEmpty then none else some path

/-- The run failed, and no file has changed. -/
structure Refused (o : Outcome) (t : FileTree) : Prop where
  exit : o.exit ≠ 0
  files : o.files = t

/-- The run succeeded. What it had to print was printed, or stands in the file at the path; there it
can be read, and all other files are as they were. -/
structure Delivered (o : Outcome) (t : FileTree) (path : Option Text) (content : Text) : Prop where
  exit : o.exit = 0
  printed : path = none → o.out = content ∧ o.files = t
  written : ∀ p, path = some p → o.out = [] ∧ o.files.read p = .ok content ∧
    ∃ names, t.target p = .ok names ∧ t.Replaced o.files names content

/-- The run failed after it had opened the file at the path: the file is empty now, and all others
are as they were. -/
structure Emptied (o : Outcome) (t : FileTree) (path : Text) : Prop where
  exit : o.exit = 1
  read : o.files.read path = .ok []
  replaced : ∃ names, t.target path = .ok names ∧ t.Replaced o.files names []

section

variable {t : FileTree} {path content : Text}

theorem delivered_printed : Delivered ⟨0, content, [], t⟩ t none content where
  exit := rfl
  printed _ := ⟨rfl, rfl⟩
  written _ h := nomatch h

theorem delivered_put {names : List Text} (h : t.target path = .ok names) :
    Delivered ⟨0, [], [], t.put names content⟩ t (some path) content where
  exit := rfl
  printed h := nomatch h
  written p hp := by
    obtain rfl := Option.some.inj hp
    obtain ⟨here, n, rfl, hplace⟩ := FileTree.exists_isPlace h
    exact ⟨rfl, hplace.read_put content, here ++ [n], h, hplace.replaced content⟩

theorem refused_fail (exit : Nat) (message : Text) : Refused (fail t (exit + 1) message) t :=
  ⟨Nat.succ_ne_zero exit, rfl⟩

theorem destination?_eq_some {p : Text} (h : destination? path = some p) :
    path.isEmpty = false ∧ path = p := by
  rw [destination?] at h
  split_ifs at h with hempty
  exact ⟨Bool.eq_false_iff.2 hempty, Option.some.inj h⟩

/-- What there is to print is delivered if the path can be opened. -/
theorem delivered_deliver (h : t.Opens (destination? path)) :
    (deliver t path (.ok content)).Delivered t (destination? path) content := by
  rw [deliver]
  by_cases hempty : path.isEmpty = true
  · rw [if_pos hempty, destination?, if_pos hempty]
    exact delivered_printed
  · rw [destination?, if_neg hempty] at h ⊢
    obtain ⟨names, hnames⟩ := FileTree.opens_some.1 h
    simp only [if_neg hempty, hnames]
    exact delivered_put hnames

/-- If there is nothing to print, a path that can be opened leads to an empty file. -/
theorem emptied_deliver {p message : Text} (hp : destination? path = some p)
    (h : t.Opens (some p)) : (deliver t path (.error message)).Emptied t p := by
  obtain ⟨hempty, rfl⟩ := destination?_eq_some hp
  obtain ⟨names, hnames⟩ := FileTree.opens_some.1 h
  obtain ⟨here, n, rfl, hplace⟩ := FileTree.exists_isPlace hnames
  simp only [deliver, hempty, hnames, Bool.false_eq_true, if_false]
  exact ⟨rfl, hplace.read_put [], here ++ [n], hnames, hplace.replaced []⟩

/-- A path that cannot be opened is found out before anything is done. -/
theorem refused_deliver (c : Except Text Text) (h : ¬ t.Opens (destination? path)) :
    (deliver t path c).Refused t := by
  by_cases hempty : path.isEmpty = true
  · rw [destination?, if_pos hempty] at h
    exact absurd FileTree.opens_none h
  · rw [destination?, if_neg hempty, FileTree.opens_some] at h
    cases hnames : t.target path with
    | ok names => exact absurd ⟨names, hnames⟩ h
    | error e =>
      simp only [deliver, if_neg hempty, hnames]
      exact refused_fail 0 _

/-- Without a file, nothing is lost if there is nothing to print. -/
theorem refused_deliver_of_eq_none {message : Text} (h : destination? path = none) :
    (deliver t path (.error message)).Refused t := by
  have hempty : path.isEmpty = true := by
    rw [destination?] at h
    split_ifs at h with hempty
    exact hempty
  simp only [deliver, hempty, if_true]
  exact refused_fail 0 _

end

end Outcome

/-- The lines in which settings are printed: a table for each group of them. An output file has a
line only if there is one. -/
def Settings.lines (s : Settings) : List Text :=
  [utf8 "[Parser]", utf8 "MaxDepth = " ++ Text.ofInt s.maxDepth, [],
    utf8 "[Output]", utf8 "Format = " ++ Text.quoted s.format] ++
  (if s.out.isEmpty then [] else [utf8 "Out = " ++ Text.quoted s.out]) ++
  [[], utf8 "[Check]", utf8 "Workers = " ++ Text.ofInt s.workers, [],
    utf8 "[Watch]", utf8 "CacheSize = " ++ Text.ofInt s.cacheSize]

theorem Settings.dump_eq (s : Settings) :
    s.dump = s.lines.flatMap fun line => line ++ [Text.lineFeed] := by
  rw [dump, lines]
  cases s.out.isEmpty with
  | true =>
    simp only [if_true, List.flatMap_cons, List.flatMap_nil, List.append_nil, List.nil_append,
      List.append_assoc, List.cons_append]
    rfl
  | false =>
    simp only [Bool.false_eq_true, if_false, List.flatMap_cons, List.flatMap_nil, List.append_nil,
      List.nil_append, List.append_assoc, List.cons_append]
    rfl

theorem Settings.isKnown_format {s : Settings} (h : s.invalid? = none) :
    Format.IsKnown s.format := by
  obtain ⟨-, -, -, -, -, -, hformat⟩ := exists_of_valid h
  exact Format.isKnown_of_isSome hformat

theorem FileTree.exists_parse_of_load {t : FileTree} {maxDepth : Int} {p : Text} {q : Program}
    (h : t.load maxDepth p = .ok q) : ∃ text, parse maxDepth text = .ok q := by
  rw [load] at h
  split at h
  · cases h
  · rename_i text _
    rw [Source.parse] at h
    split at h
    · rename_i q' hparse
      exact ⟨text, Except.ok.inj h ▸ hparse⟩
    · cases h

theorem Settings.invalid?_of_assemble {processors : Int} {t : FileTree} {file : Text}
    {flags : Layer} {s : Settings} (h : assemble processors t file flags = .ok s) :
    s.invalid? = none := by
  rw [assemble] at h
  split at h
  · cases h
  · rw [validated] at h
    split at h
    · cases h
    · rename_i hvalid
      rwa [← Except.ok.inj h]

namespace Command

/-- The file that a command writes to: the one of the settings, or the first argument of
`dumpconfig`. -/
def output? (c : Command) (s : Settings) (plain : List Text) : Option Text :=
  match c with
  | dumpconfig => plain.head?
  | _ => Outcome.destination? s.out

/-- What `ast` and `dumpconfig` print: the tree of the one file that is named, in the format of the
settings, or the settings themselves. -/
def Renders (c : Command) (s : Settings) (t : FileTree) (plain : List Text)
    (content : Text) : Prop :=
  match c with
  | ast => ∃ p q, plain = [p] ∧ t.load s.maxDepth p = .ok q ∧ q.Printed s.format content
  | dumpconfig => content = s.lines.flatMap fun line => line ++ [Text.lineFeed]
  | _ => False

/-- The command has its arguments and its settings, something to print, and a file to print it
to. -/
def Yields (c : Command) (args : List Text) (processors : Int) (t : FileTree) (path : Option Text)
    (content : Text) : Prop :=
  ∃ config own s, CommandLine.read args = .command c config own ∧
    Settings.assemble processors t config own.layer = .ok s ∧ c.output? s own.plain = path ∧
    c.Renders s t own.plain content ∧ t.Opens path

/-- The tree of the one file that is named is too deep for JSON, and there is a file to print it
to. -/
def Breaks (args : List Text) (processors : Int) (t : FileTree) (s : Settings)
    (path : Text) : Prop :=
  ∃ config own p q message, CommandLine.read args = .command ast config own ∧
    Settings.assemble processors t config own.layer = .ok s ∧ own.plain = [p] ∧
    t.load s.maxDepth p = .ok q ∧ q.Refused s.format message ∧
    ast.output? s own.plain = some path ∧ t.Opens (some path)

/-- The command that is asked for, whatever its own arguments are. -/
def IsAsked (c : Command) (args : List Text) : Prop :=
  ∃ general rest, Arguments.read Flag.general args = .ok general ∧ general.asksHelp = false ∧
    general.isOn .version = false ∧ general.isOn .v = false ∧ general.plain = c.name :: rest

section

variable {c : Command} {s : Settings} {t : FileTree} {args : List Text} {config : Text}
  {own : Arguments} {processors : Int} {input : Text} {events : List FileEvent}

/-- A command line that asks for a command is misused, asks for help, or gives the command its
arguments. -/
theorem IsAsked.read_cases (h : c.IsAsked args) :
    (∃ e, CommandLine.read args = .misused e) ∨ CommandLine.read args = .help ∨
      ∃ config own, CommandLine.read args = .command c config own := by
  obtain ⟨general, rest, hread, hhelp, hversion, hv, hplain⟩ := h
  have hfind : Command.all.find? (fun d => d.name = c.name) = some c := by
    cases c <;> decide
  simp only [CommandLine.read, hread, hhelp, hversion, hv, Bool.or_self, Bool.false_eq_true,
    if_false, hplain, hfind, CommandLine.readOwn]
  cases Arguments.read (c.flags ++ Flag.helps) (Arguments.flagsFirst rest) with
  | error e => exact .inl ⟨e, rfl⟩
  | ok own =>
    cases hasks : own.asksHelp with
    | true => exact .inr (.inl (if_pos hasks))
    | false => exact .inr (.inr ⟨_, own, if_neg (Bool.eq_false_iff.1 hasks)⟩)

/-- A command that has its arguments and its settings is started. -/
theorem run_of_start (hread : CommandLine.read args = .command c config own)
    (hcomplaint : c.complaint? own.plain = none)
    (hassemble : Settings.assemble processors t config own.layer = .ok s) {o : Outcome}
    (hstart : c.start s (own.text? .format).isSome t own.plain = .finished o) :
    run args processors t input events = o := by
  simp only [run, hread, CommandLine.start, hcomplaint, hassemble, hstart]

theorem run_ast {p : Text} (hread : CommandLine.read args = .command ast config own)
    (hassemble : Settings.assemble processors t config own.layer = .ok s)
    (hplain : own.plain = [p]) : run args processors t input events = runAst s t p := by
  refine run_of_start hread ?_ hassemble ?_
  · rw [hplain]
    rfl
  · rw [hplain]
    rfl

theorem run_dumpconfig (hread : CommandLine.read args = .command dumpconfig config own)
    (hassemble : Settings.assemble processors t config own.layer = .ok s) :
    run args processors t input events = runDumpConfig s t own.plain :=
  run_of_start hread rfl hassemble rfl

/-- The settings are printed before the file for them is opened. -/
theorem delivered_runDumpConfig {plain : List Text} (h : t.Opens plain.head?) :
    (runDumpConfig s t plain).Delivered t plain.head? s.dump := by
  cases plain with
  | nil => exact Outcome.delivered_printed
  | cons p rest =>
    obtain ⟨names, hnames⟩ := FileTree.opens_some.1 h
    simp only [runDumpConfig, FileTree.write, hnames]
    exact Outcome.delivered_put hnames

theorem refused_runDumpConfig {plain : List Text} (h : ¬ t.Opens plain.head?) :
    (runDumpConfig s t plain).Refused t := by
  cases plain with
  | nil => exact absurd FileTree.opens_none h
  | cons p rest =>
    rw [List.head?_cons, FileTree.opens_some] at h
    cases hnames : t.target p with
    | ok names => exact absurd ⟨names, hnames⟩ h
    | error e =>
      simp only [runDumpConfig, FileTree.write, hnames]
      exact Outcome.refused_fail 0 _

/-- **What there is to print is delivered.** -/
theorem Yields.delivered {path : Option Text} {content : Text}
    (h : c.Yields args processors t path content) :
    (run args processors t input events).Delivered t path content := by
  obtain ⟨config, own, s, hread, hassemble, rfl, hrenders, hopens⟩ := h
  cases c with
  | ast =>
    obtain ⟨p, q, hplain, hload, hprinted⟩ := hrenders
    obtain ⟨text, hparse⟩ := FileTree.exists_parse_of_load hload
    rw [run_ast hread hassemble hplain, runAst]
    simp only [hload, (wellFormed_of_parse hparse).print_of_printed hprinted]
    exact Outcome.delivered_deliver hopens
  | dumpconfig =>
    obtain rfl : content = _ := hrenders
    rw [run_dumpconfig hread hassemble, ← s.dump_eq]
    exact delivered_runDumpConfig hopens
  | tokens | check | watch | repl => cases hrenders

/-- **A tree that is too deep for JSON costs the file its content.** -/
theorem Breaks.emptied {path : Text} (h : Breaks args processors t s path) :
    (run args processors t input events).Emptied t path := by
  obtain ⟨config, own, p, q, message, hread, hassemble, hplain, hload, hrefused, hpath, hopens⟩ := h
  obtain ⟨text, hparse⟩ := FileTree.exists_parse_of_load hload
  obtain ⟨said, hprint⟩ := (wellFormed_of_parse hparse).print_of_refused hrefused
  rw [run_ast hread hassemble hplain, runAst]
  simp only [hload, hprint]
  exact Outcome.emptied_deliver hpath hopens

theorem Breaks.lt_depthLimit {path : Text} (h : Breaks args processors t s path) :
    3331 < depthLimit s.maxDepth := by
  obtain ⟨-, -, p, q, message, -, -, -, hload, hrefused, -, -⟩ := h
  obtain ⟨text, hparse⟩ := FileTree.exists_parse_of_load hload
  exact hrefused.lt_depthLimit hparse

theorem exists_plain_of_complaint? {plain : List Text} (h : ast.complaint? plain = none) :
    ∃ p, plain = [p] := by
  rw [complaint?] at h
  split_ifs at h with hlength
  exact List.length_eq_one_iff.1 hlength

/-- With a file that can be opened, `ast` does its work, breaks the file, or has nothing to print. -/
theorem run_ast_cases {p : Text} (hread : CommandLine.read args = .command ast config own)
    (hassemble : Settings.assemble processors t config own.layer = .ok s)
    (hplain : own.plain = [p]) (hopens : t.Opens (ast.output? s own.plain)) :
    (∃ path content, ast.Yields args processors t path content) ∨
      (∃ path, Breaks args processors t s path) ∨
      (run args processors t input events).Refused t := by
  cases hload : t.load s.maxDepth p with
  | error e =>
    right; right
    rw [run_ast hread hassemble hplain, runAst, hload]
    exact ⟨Nat.one_ne_zero, rfl⟩
  | ok q =>
    obtain ⟨text, hparse⟩ := FileTree.exists_parse_of_load hload
    have hknown := Settings.isKnown_format (Settings.invalid?_of_assemble hassemble)
    rcases (wellFormed_of_parse hparse).print_cases hknown with
      ⟨content, -, hprinted⟩ | ⟨message, hprint, hrefused⟩
    · exact .inl ⟨_, content, config, own, s, hread, hassemble, rfl,
        ⟨p, q, hplain, hload, hprinted⟩, hopens⟩
    · right
      cases hpath : ast.output? s own.plain with
      | some path =>
        rw [hpath] at hopens
        exact .inl ⟨path, config, own, p, q, message, hread, hassemble, hplain, hload, hrefused,
          hpath, hopens⟩
      | none =>
        right
        rw [run_ast hread hassemble hplain, runAst]
        simp only [hload, hprint]
        exact Outcome.refused_deliver_of_eq_none hpath

/-- A command that has its arguments and settings does its work, refuses to, or breaks the file. -/
theorem run_command_cases (hc : c = ast ∨ c = dumpconfig)
    (hread : CommandLine.read args = .command c config own)
    (hcomplaint : c.complaint? own.plain = none)
    (hassemble : Settings.assemble processors t config own.layer = .ok s) :
    (∃ path content, c.Yields args processors t path content) ∨
      (∃ path, Breaks args processors t s path) ∨
      (run args processors t input events).Refused t := by
  by_cases hopens : t.Opens (c.output? s own.plain)
  · rcases hc with rfl | rfl
    · obtain ⟨p, hplain⟩ := exists_plain_of_complaint? hcomplaint
      exact run_ast_cases hread hassemble hplain hopens
    · exact .inl ⟨_, _, config, own, s, hread, hassemble, rfl, rfl, hopens⟩
  · right; right
    rcases hc with rfl | rfl
    · obtain ⟨p, hplain⟩ := exists_plain_of_complaint? hcomplaint
      rw [run_ast hread hassemble hplain, runAst]
      split
      · exact ⟨Nat.one_ne_zero, rfl⟩
      · exact Outcome.refused_deliver _ hopens
    · rw [run_dumpconfig hread hassemble]
      exact refused_runDumpConfig hopens

/-- **A run does all of its work or none**, or it breaks its output file. -/
theorem run_cases (hc : c = ast ∨ c = dumpconfig) (hargs : c.IsAsked args) :
    CommandLine.read args = .help ∨ (∃ path content, c.Yields args processors t path content) ∨
      (∃ s path, Breaks args processors t s path) ∨
        (run args processors t input events).Refused t := by
  rcases hargs.read_cases with ⟨e, hread⟩ | hhelp | ⟨config, own, hread⟩
  · right; right; right
    rw [run, hread]
    exact Outcome.refused_fail 0 _
  · exact .inl hhelp
  · right
    cases hcomplaint : c.complaint? own.plain with
    | some m =>
      right; right
      simp only [run, hread, CommandLine.start, hcomplaint]
      exact Outcome.refused_fail 1 _
    | none =>
      cases hassemble : Settings.assemble processors t config own.layer with
      | error e =>
        right; right
        simp only [run, hread, CommandLine.start, hcomplaint, hassemble]
        exact Outcome.refused_fail 0 _
      | ok s =>
        rcases run_command_cases hc hread hcomplaint hassemble with
          hyields | ⟨path, hbreaks⟩ | hrefused
        · exact .inl hyields
        · exact .inr (.inl ⟨s, path, hbreaks⟩)
        · exact .inr (.inr hrefused)

theorem run_of_help (h : CommandLine.read args = .help) :
    run args processors t input events = ⟨0, [], [], t⟩ := by
  rw [run, h]
  rfl

end

/-- **A run that fails changes no file, unless the tree is too deep for JSON; one that succeeds
writes what it has to print, and nothing else.** It succeeds if help is asked for, which touches no
file; otherwise exactly if it has its arguments and settings, something to print, and a file that
can be opened. Which of the files is written to does not matter: it may be the one that was read. A
tree that is too deep leaves the output file empty. -/
theorem files_of_run {c : Command} (hc : c = ast ∨ c = dumpconfig) {args : List Text}
    (hargs : c.IsAsked args) (processors : Int) (t : FileTree) (input : Text)
    (events : List FileEvent) :
    let o := run args processors t input events
    (o.exit ≠ 0 → o.files = t ∨
        ∃ s path, Breaks args processors t s path ∧ 3331 < depthLimit s.maxDepth ∧
          o.Emptied t path) ∧
      (o.exit = 0 → CommandLine.read args = .help ∨
        ∃ path content, c.Yields args processors t path content ∧ o.Delivered t path content) ∧
      (CommandLine.read args = .help → o.exit = 0 ∧ o.files = t) ∧
      (∀ path content, c.Yields args processors t path content → o.Delivered t path content) ∧
      ∀ s path, Breaks args processors t s path → o.Emptied t path := by
  intro o
  refine ⟨?_, ?_, ?_, fun path content => Yields.delivered, fun s path => Breaks.emptied⟩
  · intro hexit
    rcases run_cases hc hargs with hhelp | ⟨path, content, hyields⟩ | ⟨s, path, hbreaks⟩ | hrefused
    · exact absurd (congrArg Outcome.exit (run_of_help hhelp)) hexit
    · exact absurd hyields.delivered.exit hexit
    · exact .inr ⟨s, path, hbreaks, hbreaks.lt_depthLimit, hbreaks.emptied⟩
    · exact .inl hrefused.files
  · intro hexit
    rcases run_cases hc hargs with hhelp | ⟨path, content, hyields⟩ | ⟨s, path, hbreaks⟩ | hrefused
    · exact .inl hhelp
    · exact .inr ⟨path, content, hyields, hyields.delivered⟩
    · exact absurd (hexit.symm.trans hbreaks.emptied.exit) Nat.zero_ne_one
    · exact absurd hexit hrefused.exit
  · intro hhelp
    exact ⟨congrArg Outcome.exit (run_of_help hhelp), congrArg Outcome.files (run_of_help hhelp)⟩

/-- Two files, one of them a program. -/
def sampleFiles : FileTree :=
  ⟨[(utf8 "a.ts", .file (utf8 "f ( 1 ) ;")), (utf8 "b.ts", .file (utf8 "f("))], []⟩

/-- The tree of a file, printed over the file itself. -/
def overwriting (file : Text) : List Text :=
  [utf8 "ast", utf8 "--format=text", utf8 "--out", utf8 "a.ts", file]

theorem files_of_run_overwriting :
    let done := run (overwriting (utf8 "a.ts")) 4 sampleFiles [] []
    let failed := run (overwriting (utf8 "b.ts")) 4 sampleFiles [] []
    (done.exit = 0 ∧ (done.files.read (utf8 "a.ts")).toOption = some (utf8 "f(1);\n") ∧
      ∃ path content, ast.Yields (overwriting (utf8 "a.ts")) 4 sampleFiles path content ∧
        done.Delivered sampleFiles path content) ∧
      failed.exit ≠ 0 ∧ failed.files = sampleFiles := by
  intro done failed
  have hasked (file : Text) : ast.IsAsked (overwriting file) :=
      ⟨⟨[], _⟩, _, rfl, rfl, rfl, rfl, rfl⟩
  have hdone : done.exit = 0 := by decide +kernel
  have hfailed : failed.exit ≠ 0 := by decide +kernel
  refine ⟨⟨hdone, by decide +kernel, ?_⟩, hfailed, ?_⟩
  · rcases (files_of_run (.inl rfl) (hasked _) 4 sampleFiles [] []).2.1 hdone with hhelp | hyields
    · cases hhelp
    · exact hyields
  · rcases (files_of_run (.inl rfl) (hasked _) 4 sampleFiles [] []).1 hfailed with
      hfiles | ⟨s, path, hbreaks, hlimit, -⟩
    · exact hfiles
    · -- the limit is the default, which lets nothing in that is too deep
      obtain ⟨config, own, p, q, message, hread, hassemble, -⟩ := hbreaks
      cases hread
      cases hassemble
      exact absurd hlimit (by decide)

/-- The text of a program, and an older output. -/
def withOlder (text : Text) : FileTree :=
  ⟨[(utf8 "a.ts", .file text), (utf8 "o.json", .file (utf8 "old"))], []⟩

theorem read_withOlder (text : Text) :
    (withOlder text).read (utf8 "o.json") = .ok (utf8 "old") := rfl

/-- The tree of the program, printed over the older output. -/
def overOlder : List Text :=
  [utf8 "ast", utf8 "--maxdepth", utf8 "4999", utf8 "--format", utf8 "json", utf8 "--out",
    utf8 "o.json", utf8 "a.ts"]

/-- Whatever the program is: if it is too deep, the older output is lost. -/
theorem emptied_withOlder {text : Text} {q : Program} (hparse : parse 4999 text = .ok q)
    (hdeep : Json.nestingLimit < q.toJson.nesting) :
    (run overOlder 4 (withOlder text) [] []).Emptied (withOlder text) (utf8 "o.json") := by
  have hread : (withOlder text).read (utf8 "a.ts") = .ok text := rfl
  have hload : (withOlder text).load 4999 (utf8 "a.ts") = .ok q := by
    simp only [FileTree.load, hread, Source.parse, hparse]
  obtain ⟨message, -, hrefused⟩ := (wellFormed_of_parse hparse).exists_refused hdeep
  have hbreaks : Breaks overOlder 4 (withOlder text) ⟨4999, utf8 "json", utf8 "o.json", 4, 1024⟩
      (utf8 "o.json") :=
    ⟨[], _, _, q, message, rfl, rfl, rfl, hload, hrefused, rfl,
      FileTree.opens_some.2 ⟨[utf8 "o.json"], rfl⟩⟩
  exact hbreaks.emptied

/-- **A run that fails may leave its output file empty.** -/
theorem emptied_nestedCalls :
    let t := withOlder (nestedCallsText 4999 ++ utf8 ";")
    let o := run overOlder 4 t [] []
    o.exit = 1 ∧ t.read (utf8 "o.json") = .ok (utf8 "old") ∧
      o.files.read (utf8 "o.json") = .ok [] := by
  obtain ⟨q, hparse, hdeep⟩ := exists_parse_nestedCalls (n := 4999) (by omega)
  have hcast : ((4999 : Nat) : Int) = 4999 := rfl
  rw [hcast] at hparse
  have hemptied := emptied_withOlder hparse (by rw [hdeep, Json.nestingLimit]; omega)
  exact ⟨hemptied.exit, read_withOlder _, hemptied.read⟩

end Command

end Scriptlet
