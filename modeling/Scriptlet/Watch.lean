import Scriptlet.Diagnostic
import Scriptlet.Files.Load
import Scriptlet.Watch.Cache
import Scriptlet.Watch.Digest

/-!
# Watching files

A watcher checks files again and again, but not a file whose text is the one it saw at the last
check: it remembers the digest of each path's text, in a store that may forget. What a watch covers
is a file, or all source files below a directory; events about other files are ignored.
-/

namespace Scriptlet

/-- A store of digests by path. -/
class DigestStore (σ : Type) where
  /-- The digest of a path, if there is one, and the store after the path was asked for. -/
  get : σ → Text → Option UInt64 × σ
  /-- The store with a digest added for a path. -/
  add : σ → Text → UInt64 → σ

instance : DigestStore (Cache UInt64) := ⟨Cache.get, Cache.add⟩

/-- A watcher between two checks. -/
structure Watcher (σ : Type) where
  /-- The limit on nesting. -/
  maxDepth : Int
  /-- The digest of the text that each path had when it was last read. -/
  digests : σ

/-- What a check comes to. -/
structure WatchResult (σ : Type) where
  /-- The watcher after the check. -/
  watcher : Watcher σ
  /-- Was the text parsed? -/
  parsed : Bool
  /-- Why there is no program, if there is none. -/
  error : Option LoadError
  /-- What is printed. -/
  out : Text

namespace Watcher

variable {σ : Type} [DigestStore σ]

/-- A watcher that remembers the given number of paths. -/
def new (maxDepth cacheSize : Int) : Except Text (Watcher (Cache UInt64)) :=
  if cacheSize ≤ 0 then .error (utf8 "must provide a positive size")
  else .ok ⟨maxDepth, Cache.empty cacheSize.toNat⟩

/-- Checks the file at a path, unless its text is the one it had at the last check. -/
def check (w : Watcher σ) (t : FileTree) (p : Text) : WatchResult σ :=
  match t.read p with
  | .error e => ⟨w, false, some (.file e), []⟩
  | .ok text =>
    let d := digest text
    let (last, digests) := DigestStore.get w.digests p
    if last = some d then ⟨{ w with digests := digests }, false, none, []⟩
    else
      let w := { w with digests := DigestStore.add digests p d }
      match Source.parse ⟨p, text⟩ w.maxDepth with
      | .ok _ => ⟨w, true, none, []⟩
      | .error e => ⟨w, true, some e, Diagnostic.print false e.message⟩

/-- Checks one file after the other. -/
def checkAll (w : Watcher σ) (t : FileTree) (paths : List Text) : Watcher σ × Text :=
  paths.foldl
    (fun s p => let r := s.1.check t p; (r.watcher, s.2 ++ r.out))
    (w, [])

end Watcher

/-- Does the path have the extension of a source file? -/
def isSourcePath (p : Text) : Bool :=
  Path.extension p = utf8 ".ts" || Path.extension p = utf8 ".tsn"

mutual

/-- The source files of an entry with the given path. -/
def Entry.sourceFiles (p : Text) : Entry → List Text
  | .file _ => if isSourcePath p then [p] else []
  | .directory es => Entry.sourceFilesIn p es

/-- The source files of a directory with the given path. -/
def Entry.sourceFilesIn (p : Text) : List (Text × Entry) → List Text
  | [] => []
  | (n, e) :: rest => e.sourceFiles (Path.join p n) ++ Entry.sourceFilesIn p rest

end

/-- The files that a watch on `root` covers: the file itself, or the source files of the directory,
names in order and a directory's own files before what comes after it. -/
def FileTree.sourceFiles (t : FileTree) (root : Text) : Except FileError (List Text) :=
  match t.find root with
  | .error o => .error ⟨utf8 "stat", root, o⟩
  | .ok (.file _) => .ok [root]
  | .ok (.directory es) => .ok (Entry.sourceFilesIn root es)

mutual

/-- The path of the first directory, in the order of a walk, that has too long a path to be
opened. -/
def Entry.unopened? (p : Text) : Entry → Option Text
  | .file _ => none
  | .directory es => if FileTree.pathLimit < p.length then some p else Entry.unopenedIn? p es

/-- The first directory with too long a path below a directory with the given path. -/
def Entry.unopenedIn? (p : Text) : List (Text × Entry) → Option Text
  | [] => none
  | (n, e) :: rest => (e.unopened? (Path.join p n)).or (Entry.unopenedIn? p rest)

end

/-- Lists the files that a watch on `root` covers. Every directory on the way has to be opened by
its path, so the files are listed only if all these paths are short enough. -/
def FileTree.listSources (t : FileTree) (root : Text) : Except FileError (List Text) :=
  match (t.find root).toOption.bind (Entry.unopened? root) with
  | some p => .error ⟨utf8 "open", p, .tooLong⟩
  | none => t.sourceFiles root

/-- What a watch on `root` listens to: everything below a directory, or the directory of a file. -/
def watchTarget (root : Text) (isDirectory : Bool) : Text :=
  if isDirectory then Path.join root (utf8 "...") else Path.parent root

/-- Does an event about the path `p` concern a watch on `root`? -/
def watchCovers (root : Text) (isDirectory : Bool) (p : Text) : Bool :=
  if isDirectory then isSourcePath p else p = root

end Scriptlet
