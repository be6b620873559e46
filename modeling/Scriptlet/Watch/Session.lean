import Scriptlet.Watch

/-!
# A watch

A watch checks the files it covers once, and then again those of them about which it is told.
-/

namespace Scriptlet

/-- A watch that has checked its files. -/
structure Watch where
  /-- The file or directory that is watched, as seen from the root. -/
  root : Text
  /-- Is it a directory? -/
  isDirectory : Bool
  /-- The watcher. -/
  watcher : Watcher (Cache UInt64)

/-- A file gets new content. -/
structure FileEvent where
  /-- The path of the file. -/
  path : Text
  /-- What it holds now. -/
  content : Text

namespace Watch

/-- Starts a watch on a path, and says what the first check prints. -/
def start (t : FileTree) (maxDepth cacheSize : Int) (p : Text) : Except Text (Watch × Text) :=
  let root := Path.absolute t.homePath p
  match t.listSources root, t.isDirectory root, Watcher.new maxDepth cacheSize with
  | .error e, _, _ => .error e.message
  | _, .error e, _ => .error e.message
  | _, _, .error m => .error m
  | .ok files, .ok isDirectory, .ok w =>
    let (w, out) := w.checkAll t files
    .ok (⟨root, isDirectory, w⟩, out)

/-- Does the path lie below the directory? -/
def isBelow (directory p : Text) : Bool :=
  if directory = [Path.slash] then true else Text.startsWith p (directory ++ [Path.slash])

/-- Is a change of the file at the path noticed? -/
def notices (w : Watch) (p : Text) : Bool :=
  watchCovers w.root w.isDirectory p && (!w.isDirectory || isBelow w.root p)

/-- The watch after a file has changed, and what is printed. -/
def notice (w : Watch) (t : FileTree) (p : Text) : Watch × Text :=
  if w.notices p then
    let r := w.watcher.check t p
    ({ w with watcher := r.watcher }, r.out)
  else (w, [])

/-- The files after events, and what is printed about them. -/
def follow (w : Watch) (t : FileTree) : List FileEvent → FileTree × Text
  | [] => (t, [])
  | e :: rest =>
    let t := t.writeDeep e.path e.content
    let (w, out) := w.notice t (Path.absolute t.homePath e.path)
    let (t, more) := w.follow t rest
    (t, out ++ more)

end Watch

end Scriptlet
