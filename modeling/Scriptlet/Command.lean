import Scriptlet.Check
import Scriptlet.Command.Flag
import Scriptlet.Console.Session
import Scriptlet.Settings.Load
import Scriptlet.Token.Listing
import Scriptlet.Watch.Session

/-!
# Commands

A command line is read, the settings are put together, and the command does its work: on files that
are a value, so that what a run prints, writes and answers is a function of what it is given.

An output file is opened, and is empty from then on, before what goes to it is printed; if a tree
turns out too deep for JSON, the file stays empty. Tokens are written also if they end at a
character that cannot be read.

Every command can be asked for help, and there is a command for help. The pages that are shown then
are left out, and so are the lines that a run logs.
-/

namespace Scriptlet

/-- A command. -/
inductive Command where
  /-- Print the tokens of a file. -/
  | tokens
  /-- Print the tree of a file. -/
  | ast
  /-- Check files. -/
  | check
  /-- Check files again whenever they change. -/
  | watch
  /-- Read programs line by line. -/
  | repl
  /-- Print the settings. -/
  | dumpconfig
  deriving DecidableEq

namespace Command

/-- All commands. -/
def all : List Command := [tokens, ast, check, watch, repl, dumpconfig]

/-- The name of a command. -/
def name : Command → Text
  | tokens => utf8 "tokens"
  | ast => utf8 "ast"
  | check => utf8 "check"
  | watch => utf8 "watch"
  | repl => utf8 "repl"
  | dumpconfig => utf8 "dumpconfig"

/-- The flags of a command. -/
def flags : Command → List Flag
  | tokens => [.out]
  | ast => [.format, .out, .maxDepth]
  | check => [.workers, .maxDepth]
  | watch => [.maxDepth, .cacheSize]
  | repl => [.format, .maxDepth]
  | dumpconfig => [.maxDepth, .format, .out, .workers, .cacheSize]

/-- What is said if a command does not have the plain arguments it needs. -/
def complaint? (c : Command) (plain : List Text) : Option Text :=
  match c with
  | tokens =>
    if plain.length = 1 then none else some (utf8 "tokens needs exactly one FILE argument")
  | ast => if plain.length = 1 then none else some (utf8 "ast needs exactly one FILE argument")
  | check => if plain.isEmpty then some (utf8 "check needs at least one FILE argument") else none
  | watch =>
    if plain.length = 1 then none else some (utf8 "watch needs exactly one FILE or DIR argument")
  | _ => none

end Command

/-- What a run comes to. -/
structure Outcome where
  /-- The exit code. -/
  exit : Nat
  /-- What is printed. -/
  out : Text
  /-- What is printed as errors. Log lines, which a run may print there too, are left out. -/
  err : Text
  /-- The files afterwards. -/
  files : FileTree

/-- What a run has come to when its command has started. -/
inductive Started where
  /-- It is over. -/
  | finished (o : Outcome)
  /-- A console waits for input. -/
  | console (c : Console)
  /-- A watch waits for events, and has printed errors. -/
  | watching (w : Watch) (err : Text)

namespace Outcome

/-- A run that fails with a message and leaves the given files. -/
def fail (t : FileTree) (exit : Nat) (message : Text) : Outcome :=
  ⟨exit, [], message ++ [Text.lineFeed], t⟩

/-- A run that prints to a file, or to the output if the path is empty. The file is empty once it is
open, and stays so if nothing can be printed. -/
def deliver (t : FileTree) (path : Text) (content : Except Text Text) : Outcome :=
  if path.isEmpty then
    match content with
    | .error m => fail t 1 m
    | .ok c => ⟨0, c, [], t⟩
  else
    match t.target path with
    | .error e => fail t 1 e.message
    | .ok names =>
      match content with
      | .error m => fail (t.put names []) 1 m
      | .ok c => ⟨0, [], [], t.put names c⟩

/-- A run with a diagnostic added, which makes it fail. -/
def withDiagnostic (o : Outcome) (message : Text) : Outcome :=
  { o with exit := 1, err := o.err ++ Diagnostic.print false message }

end Outcome

namespace Command

/-- Prints the tokens of the file at a path: those before the first character that cannot be
read. -/
def runTokens (s : Settings) (t : FileTree) (p : Text) : Outcome :=
  match t.read p with
  | .error e => .fail t 1 e.message
  | .ok text =>
    let run := tokenize text
    let o := Outcome.deliver t s.out (.ok (tokenListing ⟨p, text⟩ run.all))
    match run.ending with
    | .complete _ => o
    | .unreadable u =>
      if o.exit = 0 then
        o.withDiagnostic (Failure.message ⟨u.offset, .unexpectedCharacter u.character⟩ ⟨p, text⟩)
      else o

/-- Prints the tree of the file at a path. -/
def runAst (s : Settings) (t : FileTree) (p : Text) : Outcome :=
  match t.load s.maxDepth p with
  | .error e => Outcome.withDiagnostic ⟨1, [], [], t⟩ e.message
  | .ok q => Outcome.deliver t s.out (q.print s.format)

/-- Checks the files at paths. How many were checked is logged, which is left out. -/
def runCheck (s : Settings) (t : FileTree) (paths : List Text) : Outcome :=
  let rs := checkFiles t s.maxDepth paths
  if failedCount rs = 0 then ⟨0, [], [], t⟩
  else ⟨1, [], report rs ++ failedSummary rs ++ [Text.lineFeed], t⟩

/-- Prints the settings, to the file at the first path if there is one. -/
def runDumpConfig (s : Settings) (t : FileTree) (paths : List Text) : Outcome :=
  match paths with
  | [] => ⟨0, s.dump, [], t⟩
  | p :: _ =>
    match t.write p s.dump with
    | .error e => .fail t 1 e.message
    | .ok t => ⟨0, [], [], t⟩

/-- Starts a command with its settings and plain arguments. -/
def start (c : Command) (s : Settings) (formatGiven : Bool) (t : FileTree) (plain : List Text) :
    Started :=
  match c with
  | tokens => .finished (runTokens s t (plain.headD []))
  | ast => .finished (runAst s t (plain.headD []))
  | check => .finished (runCheck s t plain)
  | dumpconfig => .finished (runDumpConfig s t plain)
  | repl => .console ⟨if formatGiven then s.format else utf8 "text", s.maxDepth, []⟩
  | watch =>
    match Watch.start t s.maxDepth s.cacheSize (plain.headD []) with
    | .error m => .finished (.fail t 1 m)
    | .ok (w, err) => .watching w err

end Command

/-- What is printed for the version. -/
def versionText : Text := utf8 "tsnc version 0.1.0\n"

/-- A command line that was read. -/
inductive CommandLine where
  /-- It cannot be read. -/
  | misused (e : FlagError)
  /-- Help is asked for. -/
  | help
  /-- The version is asked for. -/
  | version
  /-- There is no command. -/
  | idle
  /-- There is no such command, or no help on it. -/
  | unknown (name : Text)
  /-- A command, with the path of the settings file and its own arguments. -/
  | command (c : Command) (config : Text) (args : Arguments)

namespace CommandLine

/-- The names of the command for help. -/
def helpNames : List Text := [utf8 "help", utf8 "h"]

/-- Asks for help on a command; the empty name stands for all of them. -/
def helpOn (topic : Text) : CommandLine :=
  if topic.isEmpty || (Command.all.map Command.name ++ helpNames).contains topic then help
  else unknown topic

/-- Reads the arguments of the command for help: the name of a command, if there is one. -/
def readHelp (args : List Text) : CommandLine :=
  match Arguments.read Flag.helps (Arguments.flagsFirst args) with
  | .error e => misused e
  | .ok own => if own.asksHelp then help else helpOn (own.plain.headD [])

/-- Reads the arguments of a command. -/
def readOwn (c : Command) (config : Text) (args : List Text) : CommandLine :=
  match Arguments.read (c.flags ++ Flag.helps) (Arguments.flagsFirst args) with
  | .error e => misused e
  | .ok own => if own.asksHelp then help else command c config own

/-- Reads a command line. -/
def read (args : List Text) : CommandLine :=
  match Arguments.read Flag.general args with
  | .error e => misused e
  | .ok general =>
    if general.asksHelp then help
    else if general.isOn .version || general.isOn .v then version
    else
      match general.plain with
      | [] => idle
      | n :: rest =>
        match Command.all.find? fun c => c.name = n with
        | some c => readOwn c ((general.text? .config).getD []) rest
        | none => if helpNames.contains n then readHelp rest else helpOn n

/-- Starts what a command line asks for. -/
def start (l : CommandLine) (processors : Int) (t : FileTree) : Started :=
  match l with
  | misused e => .finished (.fail t 1 e.message)
  | help => .finished ⟨0, [], [], t⟩
  | version => .finished ⟨0, versionText, [], t⟩
  | idle => .finished ⟨0, [], [], t⟩
  | unknown n => .finished (.fail t 3 (utf8 "No help topic for '" ++ n ++ utf8 "'"))
  | command c config args =>
    match c.complaint? args.plain with
    | some m => .finished (.fail t 2 m)
    | none =>
      match Settings.assemble processors t config args.layer with
      | .error e => .finished (.fail t 1 e.message)
      | .ok s => c.start s (args.text? .format).isSome t args.plain

/-- The paths that a run looks at or writes to, as far as the files known so far tell. -/
def paths (l : CommandLine) (processors : Int) (t : FileTree) : List Text :=
  match l with
  | command _ config args =>
    let out := match Settings.assemble processors t config args.layer with
      | .ok s => [s.out]
      | .error _ => []
    config :: out ++ args.plain
  | _ => []

end CommandLine

/-- Runs a command line on files, with all of the input of a console and all events of a watch. -/
def run (args : List Text) (processors : Int) (t : FileTree) (input : Text)
    (events : List FileEvent) : Outcome :=
  match (CommandLine.read args).start processors t with
  | .finished o => o
  | .console c => ⟨0, c.session input, [], t⟩
  | .watching w err =>
    let (t, more) := w.follow t events
    ⟨0, [], err ++ more, t⟩

end Scriptlet
