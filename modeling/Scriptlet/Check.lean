import Scriptlet.Diagnostic
import Scriptlet.Files.Load

/-!
# Checking files

Many files are checked at once. Each is parsed on its own, so the outcome is one result for each
path, in the order of the paths, however the work is shared out.
-/

namespace Scriptlet

/-- The outcome for one file. -/
structure CheckResult where
  /-- Its path. -/
  path : Text
  /-- The number of its statements, or why it is no program. -/
  outcome : Except LoadError Nat

/-- Checks one file. -/
def checkFile (t : FileTree) (maxDepth : Int) (p : Text) : CheckResult :=
  ⟨p, (t.load maxDepth p).map fun q => q.body.length⟩

/-- Checks files. -/
def checkFiles (t : FileTree) (maxDepth : Int) (paths : List Text) : List CheckResult :=
  paths.map (checkFile t maxDepth)

/-- Checks files, unless the work was called off before it began. -/
def checkFilesUnless (cancelled : Bool) (t : FileTree) (maxDepth : Int) (paths : List Text) :
    Except Text (List CheckResult) :=
  if cancelled && !paths.isEmpty then .error (utf8 "context canceled")
  else .ok (checkFiles t maxDepth paths)

/-- The error of a result, if it is one. -/
def CheckResult.error? (r : CheckResult) : Option LoadError :=
  match r.outcome with
  | .error e => some e
  | .ok _ => none

/-- The number of statements of a result; none if it is an error. -/
def CheckResult.statements (r : CheckResult) : Nat :=
  match r.outcome with
  | .ok n => n
  | .error _ => 0

/-- The number of files that are no programs. -/
def failedCount (rs : List CheckResult) : Nat := (rs.filterMap CheckResult.error?).length

/-- The diagnostics of all results, in order. -/
def report (rs : List CheckResult) : Text :=
  (rs.filterMap CheckResult.error?).flatMap fun e => Diagnostic.print false e.message

/-- What is said if files failed. -/
def failedSummary (rs : List CheckResult) : Text :=
  Text.ofNat (failedCount rs) ++ utf8 " of " ++ Text.ofNat rs.length ++ utf8 " files failed"

end Scriptlet
