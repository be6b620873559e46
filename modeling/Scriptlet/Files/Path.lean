import Scriptlet.Text

/-!
# Paths

Paths as texts: names divided by slashes, worked on without looking at any file.
-/

namespace Scriptlet.Path

/-- The slash. -/
def slash : UInt8 := 47

/-- The names of a path. -/
def names (p : Text) : List Text := Text.splitOn slash p

/-- Does the path start at the root? -/
def isAbsolute (p : Text) : Bool := Text.startsWith p [slash]

/-- One more name after those kept so far, last one first: an empty name and `.` are dropped, and
`..` takes back the name before it. Above the root there is nothing. -/
def step (rooted : Bool) (kept : List Text) (name : Text) : List Text :=
  if name = [] || name = utf8 "." then kept
  else if name = utf8 ".." then
    match kept with
    | [] => if rooted then [] else [name]
    | last :: before => if last = utf8 ".." then name :: kept else before
  else name :: kept

/-- The shortest path that means the same, whatever files there are. -/
def clean (p : Text) : Text :=
  let rooted := isAbsolute p
  let kept := ((names p).foldl (step rooted) []).reverse
  if rooted then slash :: Text.join [slash] kept
  else if kept.isEmpty then utf8 "."
  else Text.join [slash] kept

/-- The path of `name` seen from `p`. -/
def join (p name : Text) : Text :=
  match p, name with
  | [], [] => []
  | [], _ => clean name
  | _, [] => clean p
  | _, _ => clean (p ++ [slash] ++ name)

/-- All of a path but its last name. -/
def parent (p : Text) : Text :=
  match (names p).dropLast with
  | [] => clean []
  | ns => clean (Text.join [slash] ns ++ [slash])

/-- What follows the last point of the last name, with the point; empty if it has none. -/
def extension (p : Text) : Text :=
  let name := (names p).getLastD []
  let tail := (name.reverse.takeWhile (· != 46)).reverse
  if tail.length < name.length then 46 :: tail else []

/-- The path as seen from the root, for a path as seen from `home`. -/
def absolute (home p : Text) : Text := if isAbsolute p then clean p else join home p

end Scriptlet.Path
