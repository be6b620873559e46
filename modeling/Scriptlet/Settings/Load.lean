import Scriptlet.Files.Tree
import Scriptlet.Settings.File

/-!
# Settings of a run

The settings of a run are the defaults, under those of a file if one is named, under those of the
flags. Whatever a lower layer says, only the settings that come out are looked at in the end.
-/

namespace Scriptlet

/-- Why a run has no settings. -/
inductive SettingsError where
  /-- The file cannot be read. -/
  | file (e : FileError)
  /-- The file with the given name is not a settings file. -/
  | content (name : Text) (p : Settings.Problem)
  /-- The settings cannot be used. -/
  | invalid (i : Settings.Invalid)

/-- Why a run has no settings, in words. -/
def SettingsError.message : SettingsError → Text
  | file e => e.message
  | content name p => p.inFile name
  | invalid i => i.message

/-- The layer of the settings file at a path. -/
def FileTree.settingsLayer (t : FileTree) (p : Text) : Except SettingsError Layer :=
  match t.read p with
  | .error e => .error (.file e)
  | .ok text =>
    match Layer.ofText text with
    | .error q => .error (.content p q)
    | .ok l => .ok l

/-- The layer of the settings file at a path; the one that sets nothing if the path is empty. -/
def FileTree.settingsLayerIfNamed (t : FileTree) (p : Text) : Except SettingsError Layer :=
  if p.isEmpty then .ok Layer.empty else t.settingsLayer p

namespace Settings

/-- The settings, if they can be used. -/
def validated (s : Settings) : Except SettingsError Settings :=
  match s.invalid? with
  | some i => .error (.invalid i)
  | none => .ok s

/-- The settings of a run: defaults, then the file, then the flags. -/
def assemble (processors : Int) (t : FileTree) (file : Text) (flags : Layer) :
    Except SettingsError Settings :=
  match t.settingsLayerIfNamed file with
  | .error e => .error e
  | .ok l => (((default processors).override l).override flags).validated

end Settings

end Scriptlet
