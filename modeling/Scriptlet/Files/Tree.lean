import Scriptlet.Files.Path

/-!
# File trees

The files and directories that a run of the program sees, as one value. Names of a directory stand
in the order of their bytes. Reading, writing and looking up fail the way they do on a disk.
-/

namespace Scriptlet

/-- A file or a directory. -/
inductive Entry where
  /-- A file with its content. -/
  | file (content : Text)
  /-- A directory with its names. -/
  | directory (entries : List (Text × Entry))

/-- Why something cannot be done with a path. -/
inductive Obstacle where
  /-- There is nothing there. -/
  | missing
  /-- A file stands where a directory is needed. -/
  | notDirectory
  /-- A directory stands where a file is needed. -/
  | isDirectory
  /-- A name, or the whole path, has too many bytes. -/
  | tooLong
  /-- A path holds a zero byte. -/
  | notPath
  deriving DecidableEq

/-- An obstacle in words. -/
def Obstacle.text : Obstacle → Text
  | missing => utf8 "no such file or directory"
  | notDirectory => utf8 "not a directory"
  | isDirectory => utf8 "is a directory"
  | tooLong => utf8 "file name too long"
  | notPath => utf8 "invalid argument"

/-- What could not be done. -/
structure FileError where
  /-- The attempt: to open, to read, or to look up. -/
  attempt : Text
  /-- The path as it was given. -/
  path : Text
  /-- What was in the way. -/
  obstacle : Obstacle

/-- What could not be done, in words. -/
def FileError.message (e : FileError) : Text :=
  e.attempt ++ utf8 " " ++ e.path ++ utf8 ": " ++ e.obstacle.text

namespace Entry

/-- The names of a directory with `name` standing for `e`, or for nothing, and the rest kept. -/
def set (name : Text) (e : Option Entry) : List (Text × Entry) → List (Text × Entry)
  | [] => e.toList.map fun e => (name, e)
  | (n, d) :: rest =>
    if n = name then (e.toList.map fun e => (name, e)) ++ rest
    else if Text.le name n then (e.toList.map fun e => (name, e)) ++ (n, d) :: rest
    else (n, d) :: set name e rest

/-- The names of a directory with what is at a path below it changed by `f`. Directories on the way
are made; below a file nothing changes. -/
def alter (f : Option Entry → Option Entry) :
    List Text → List (Text × Entry) → List (Text × Entry)
  | [], es => es
  | [n], es => set n (f (es.lookup n)) es
  | n :: ns, es =>
    match es.lookup n with
    | some (.file _) => es
    | some (.directory inner) => set n (some (.directory (alter f ns inner))) es
    | none => set n (some (.directory (alter f ns []))) es

/-- What is at a path below an entry. -/
def get? : Entry → List Text → Option Entry
  | e, [] => some e
  | .file _, _ :: _ => none
  | .directory es, n :: ns =>
    match es.lookup n with
    | some e => e.get? ns
    | none => none

mutual

/-- The files of an entry that is at the given path, each with its path and content. -/
def contents (path : List Text) : Entry → List (List Text × Text)
  | .file content => [(path, content)]
  | .directory es => contentsIn path es

/-- The files of a directory that is at the given path. -/
def contentsIn (path : List Text) : List (Text × Entry) → List (List Text × Text)
  | [] => []
  | (n, e) :: rest => e.contents (path ++ [n]) ++ contentsIn path rest

end

end Entry

/-- All files and directories, and the directory that paths start from. -/
structure FileTree where
  /-- The names in the root directory. -/
  root : List (Text × Entry)
  /-- The names on the way to the working directory. -/
  home : List Text

namespace FileTree

/-- The path of the working directory. -/
def homePath (t : FileTree) : Text := Path.slash :: Text.join [Path.slash] t.home

/-- The names from the root of a path that is taken as written, with `..` going back. -/
def namesFromRoot (t : FileTree) (p : Text) : List Text :=
  (Path.names (Path.absolute t.homePath p)).filter fun n => !n.isEmpty

/-- What is at the given names below the root. -/
def get? (t : FileTree) (names : List Text) : Option Entry := (Entry.directory t.root).get? names

/-- The most bytes of a name. -/
def nameLimit : Nat := 255

/-- The most bytes of a path. -/
def pathLimit : Nat := 4095

/-- The names that a path leads to, one after the other from the directory `here`. -/
def follow (t : FileTree) : (here : List Text) → List Text → Except Obstacle (List Text)
  | here, [] => .ok here
  | here, n :: ns =>
    match t.get? here with
    | none => .error .missing
    | some (.file _) => .error .notDirectory
    | some (.directory es) =>
      if n = [] || n = utf8 "." then follow t here ns
      else if n = utf8 ".." then follow t here.dropLast ns
      else if nameLimit < n.length then .error .tooLong
      else if (es.lookup n).isSome then follow t (here ++ [n]) ns
      else .error .missing

/-- The directory that a path starts from. -/
def origin (t : FileTree) (p : Text) : List Text := if Path.isAbsolute p then [] else t.home

/-- What is wrong with a path by itself, whatever files there are. -/
def pathFault? (p : Text) : Option Obstacle :=
  if p.contains 0 then some .notPath
  else if p.isEmpty then some .missing
  else if pathLimit < p.length then some .tooLong
  else none

/-- The names that a path leads to. -/
def resolve (t : FileTree) (p : Text) : Except Obstacle (List Text) :=
  match pathFault? p with
  | some o => .error o
  | none => t.follow (t.origin p) (Path.names p)

/-- What a path leads to. -/
def find (t : FileTree) (p : Text) : Except Obstacle Entry := do
  match t.get? (← t.resolve p) with
  | some e => .ok e
  | none => .error .missing

/-- Looks up a path: is it a directory? -/
def isDirectory (t : FileTree) (p : Text) : Except FileError Bool :=
  match t.find p with
  | .error o => .error ⟨utf8 "stat", p, o⟩
  | .ok (.file _) => .ok false
  | .ok (.directory _) => .ok true

/-- The content of the file at a path. -/
def read (t : FileTree) (p : Text) : Except FileError Text :=
  match t.find p with
  | .error o => .error ⟨utf8 "open", p, o⟩
  | .ok (.directory _) => .error ⟨utf8 "read", p, .isDirectory⟩
  | .ok (.file content) => .ok content

/-- The tree with a file put at the given names, directories on the way included. -/
def put (t : FileTree) (names : List Text) (content : Text) : FileTree :=
  { t with root := Entry.alter (fun _ => some (.file content)) names t.root }

/-- The tree with a directory at the given names, if nothing is there. -/
def makeDirectory (t : FileTree) (names : List Text) : FileTree :=
  { t with root := Entry.alter (fun e => some (e.getD (.directory []))) names t.root }

/-- A place that a path names in a directory that exists: the directory, the last name, and whether
slashes follow it. There is no last name if the path ends in `.` or `..`, or has only slashes. -/
structure Place where
  /-- The names of the directory. -/
  directory : List Text
  /-- The last name. -/
  name : Option Text
  /-- Do slashes follow? -/
  slashed : Bool

/-- The place that a path names. -/
def place (t : FileTree) (p : Text) : Except Obstacle Place := do
  match pathFault? p with
  | some o => .error o
  | none =>
    let ns := ((Path.names p).reverse.dropWhile List.isEmpty).reverse
    let slashed := Text.endsWith p [Path.slash]
    let here ← t.follow (t.origin p) ns.dropLast
    match t.get? here with
    | none => .error .missing
    | some (.file _) => .error .notDirectory
    | some (.directory _) =>
      match ns.getLast? with
      | none => .ok ⟨here, none, slashed⟩
      | some n =>
        if n = utf8 "." || n = utf8 ".." then .ok ⟨here, none, slashed⟩
        else .ok ⟨here, some n, slashed⟩

/-- The names at which writing to a path puts a file: those of the file that is there, or those of a
new one. -/
def target (t : FileTree) (p : Text) : Except FileError (List Text) :=
  let attempt : Except Obstacle (List Text) := do
    let q ← t.place p
    match q.name with
    | none => .error .isDirectory
    | some n =>
      if q.slashed then .error .isDirectory
      else if nameLimit < n.length then .error .tooLong
      else
        match t.get? (q.directory ++ [n]) with
        | some (.directory _) => .error .isDirectory
        | _ => .ok (q.directory ++ [n])
  match attempt with
  | .ok ns => .ok ns
  | .error o => .error ⟨utf8 "open", p, o⟩

/-- The tree without the file or the empty directory at a path; the same tree if there is
neither. -/
def remove (t : FileTree) (p : Text) : FileTree :=
  match t.place p with
  | .ok ⟨directory, some n, slashed⟩ =>
    let names := directory ++ [n]
    let without : FileTree := { t with root := Entry.alter (fun _ => none) names t.root }
    match t.get? names with
    | some (.file _) => if slashed then t else without
    | some (.directory []) => without
    | _ => t
  | _ => t

/-- The tree with the content of the file at a path replaced, or with a new file. -/
def write (t : FileTree) (p content : Text) : Except FileError FileTree := do
  return t.put (← t.target p) content

/-- The tree with a file at a path, and with the directories on the way to it made if they are not
there; the file is left out if it cannot be written. -/
def writeDeep (t : FileTree) (p content : Text) : FileTree :=
  let t := t.makeDirectory (t.namesFromRoot (Path.parent p))
  match t.write p content with
  | .ok t => t
  | .error _ => t

/-- The files of `after` that are new or changed since `before`, each with its names from the
root. -/
def changes (before after : FileTree) : List (List Text × Text) :=
  let old := (Entry.directory before.root).contents []
  ((Entry.directory after.root).contents []).filter fun f => old.lookup f.1 != some f.2

end FileTree

end Scriptlet
