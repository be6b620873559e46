import Scriptlet.Files.Tree
import Scriptlet.Parse

/-!
# Programs in files

Reading a program from a file: either the file cannot be read, or its text is no program.
-/

namespace Scriptlet

/-- Why there is no program in a file. -/
inductive LoadError where
  /-- The file cannot be read. -/
  | file (e : FileError)
  /-- Its text is no program. -/
  | source (s : Source) (f : Failure)

/-- Why there is no program in a file, in words. -/
def LoadError.message : LoadError → Text
  | file e => e.message
  | source s f => f.message s

/-- Is it the text that is at fault? -/
def LoadError.isSource : LoadError → Bool
  | file _ => false
  | source _ _ => true

/-- The program of a source. -/
def Source.parse (s : Source) (maxDepth : Int) : Except LoadError Program :=
  match Scriptlet.parse maxDepth s.text with
  | .ok p => .ok p
  | .error f => .error (.source s f)

/-- The program in the file at a path. -/
def FileTree.load (t : FileTree) (maxDepth : Int) (p : Text) : Except LoadError Program :=
  match t.read p with
  | .error e => .error (.file e)
  | .ok text => Source.parse ⟨p, text⟩ maxDepth

end Scriptlet
