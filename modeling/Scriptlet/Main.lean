import Scriptlet.Command

/-!
# The program

The outer layer: it puts the files that a command line names into a file tree, starts the command,
and carries out what comes of it. The names in a directory are not listed: a run knows of a path
that is named, and of the directories on the way to it.
-/

namespace Scriptlet.Terminal

/-- The path from the root with the given names. -/
def pathOf? (names : List Text) : Option String :=
  String.fromUTF8? ⟨(Path.slash :: Text.join [Path.slash] names).toArray⟩

/-- What is on the disk: a file with its content, a directory, or nothing. -/
def look (names : List Text) : IO (Option Entry) := do
  match pathOf? names with
  | none => return none
  | some path =>
    try
      return some (.file (← IO.FS.readBinFile path).data.toList)
    catch
      | .inappropriateType .. => return some (.directory [])
      | _ => return none

/-- The tree with what is on the disk at a path and on the way to it. -/
def fetch (t : FileTree) (p : Text) : IO FileTree := do
  let names := t.namesFromRoot p
  (List.range names.length).foldlM
    (fun t k => do
      let place := names.take (k + 1)
      match ← look place with
      | some (.file content) => return t.put place content
      | some (.directory _) => return t.makeDirectory place
      | none => return t)
    t

/-- The tree with what is on the disk at the paths that a command line names. What the settings file
names is known only when that file is there. -/
def fetchAll (l : CommandLine) (processors : Int) (t : FileTree) : IO FileTree := do
  let t ← (l.paths processors t).foldlM fetch t
  (l.paths processors t).foldlM fetch t

/-- Prints to a stream. -/
def put (s : IO.FS.Stream) (t : Text) : IO Unit := do
  s.write ⟨t.toArray⟩
  s.flush

/-- Writes the files that a run has changed, prints what it prints, and gives its exit code. -/
def conclude (before : FileTree) (o : Outcome) : IO UInt32 := do
  for (names, content) in FileTree.changes before o.files do
    match pathOf? names with
    | some path => IO.FS.writeBinFile path ⟨content.toArray⟩
    | none => pure ()
  put (← IO.getStdout) o.out
  put (← IO.getStderr) o.err
  return o.exit.toUInt32

/-- A console session on streams. -/
partial def converse (input output : IO.FS.Stream) (c : Console) (ahead : Text) : IO Unit := do
  let takeOne (line rest : Text) : IO Unit := do
    let r := c.take line
    put output (r.out ++ r.console.prompt)
    converse input output r.console rest
  match Console.takeLine? ahead with
  | some (line, rest) => takeOne line rest
  | none =>
    let more ← input.read 4096
    if !more.isEmpty then converse input output c (ahead ++ more.data.toList)
    else if !ahead.isEmpty then takeOne ahead []
    else put output [Text.lineFeed]

/-- Waits for the watched file to change, again and again. -/
partial def await (w : Watch) (t : FileTree) : IO Unit := do
  IO.sleep 200
  let t ← fetch t w.root
  let (w, err) := if w.isDirectory then (w, []) else w.notice t w.root
  put (← IO.getStderr) err
  await w t

/-- How many processors the machine says it has. -/
def processors : IO Int := do
  try
    let info := (← IO.FS.readBinFile "/proc/cpuinfo").data.toList
    return max 1 ((Text.lines info).filter fun l => Text.startsWith l (utf8 "processor")).length
  catch _ => return 1

/-- Runs a command line. -/
def execute (args : List Text) : IO UInt32 := do
  let n ← processors
  let home := FileTree.namesFromRoot ⟨[], []⟩ (utf8 ((← IO.getEnv "PWD").getD "/"))
  let l := CommandLine.read args
  let t ← fetchAll l n (FileTree.makeDirectory ⟨[], home⟩ home)
  match l.start n t with
  | .finished o => conclude t o
  | .console c =>
    let output ← IO.getStdout
    put output (Console.welcome ++ c.prompt)
    converse (← IO.getStdin) output c []
    return 0
  | .watching w err =>
    put (← IO.getStderr) err
    await w t
    return 0

end Scriptlet.Terminal

/-- The program. -/
def main (args : List String) : IO UInt32 := Scriptlet.Terminal.execute (args.map Scriptlet.utf8)
