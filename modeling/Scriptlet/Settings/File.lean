import Scriptlet.Number.Literal
import Scriptlet.Settings
import Scriptlet.Toml.Document

/-!
# Settings files

A settings file is TOML with one table for each group of settings. It may leave out any of them;
names that are not settings, and values of the wrong type, are errors.
-/

namespace Scriptlet

namespace Settings

/-- A group of settings: a table of the file. -/
inductive Group where
  /-- Parsing. -/
  | parser
  /-- Printing. -/
  | output
  /-- Checking files. -/
  | check
  /-- Watching files. -/
  | watch
  deriving DecidableEq

namespace Group

/-- All groups. -/
def all : List Group := [parser, output, check, watch]

/-- The name of the group's table. -/
def name : Group → Text
  | parser => utf8 "Parser"
  | output => utf8 "Output"
  | check => utf8 "Check"
  | watch => utf8 "Watch"

/-- The name of the group's type in messages. -/
def typeName : Group → Text
  | parser => utf8 "parser.Config"
  | output => utf8 "main.outputConfig"
  | check => utf8 "main.checkConfig"
  | watch => utf8 "main.watchConfig"

/-- Where to find the names of the group's settings, for messages. -/
def help : Group → Text
  | parser =>
    utf8 ", see https://godoc.org/github.com/probeum/go-tsnative/lang/parser#Config for available fields"
  | _ => []

end Group

/-- One setting. -/
inductive Key where
  /-- The limit on nesting. -/
  | maxDepth
  /-- The format. -/
  | format
  /-- The output file. -/
  | out
  /-- The number of workers. -/
  | workers
  /-- The size of the cache. -/
  | cacheSize
  deriving DecidableEq

namespace Key

/-- All settings. -/
def all : List Key := [maxDepth, format, out, workers, cacheSize]

/-- The group of a setting. -/
def group : Key → Group
  | maxDepth => .parser
  | format => .output
  | out => .output
  | workers => .check
  | cacheSize => .watch

/-- The name of a setting in its table. -/
def name : Key → Text
  | maxDepth => utf8 "MaxDepth"
  | format => utf8 "Format"
  | out => utf8 "Out"
  | workers => utf8 "Workers"
  | cacheSize => utf8 "CacheSize"

/-- Is the setting a number? -/
def isNumber : Key → Bool
  | format => false
  | out => false
  | _ => true

/-- The name of the setting's type in messages. -/
def typeName (k : Key) : Text := if k.isNumber then utf8 "int" else utf8 "string"

/-- The setting in messages. -/
def place (k : Key) : Text := k.group.typeName ++ utf8 "." ++ k.name

/-- The layer with a number for the setting. -/
def setInt (k : Key) (i : Int) (l : Layer) : Layer :=
  match k with
  | maxDepth => { l with maxDepth := some i }
  | workers => { l with workers := some i }
  | cacheSize => { l with cacheSize := some i }
  | _ => l

/-- The layer with a text for the setting. -/
def setText (k : Key) (t : Text) (l : Layer) : Layer :=
  match k with
  | format => { l with format := some t }
  | out => { l with out := some t }
  | _ => l

end Key

/-- The name of the type of all settings in messages. -/
def rootTypeName : Text := utf8 "main.tsncConfig"

/-- Why a file gives no settings. -/
inductive Problem where
  /-- It is not TOML. -/
  | notToml
  /-- A name is given twice. -/
  | conflict (c : Toml.Conflict)
  /-- There is no such setting: the name, its line, the type it should belong to, and a hint. -/
  | undefined (line : Nat) (name owner help : Text)
  /-- A value, or a table, of the wrong kind: its line, the setting if it is named, what was found,
  the type it should have, and what could have taken it. -/
  | mismatch (line : Nat) (place : Option Text) (found type need : Text)
  /-- A number of more than 64 bits. -/
  | outOfRange (line : Nat) (place digits : Text)
  /-- A float beyond the largest number. -/
  | tooLarge (line : Nat) (place digits : Text)

/-- A message with its line, and the setting it is about. -/
def Problem.atLine (line : Nat) (place : Option Text) (t : Text) : Text :=
  utf8 "line " ++ Text.ofNat line ++ utf8 ": "
    ++ (match place with
      | some p => utf8 "(" ++ p ++ utf8 ") "
      | none => []) ++ t

/-- Why a file gives no settings, in words. -/
def Problem.message : Problem → Text
  | notToml => utf8 "line ?: invalid TOML syntax"
  | conflict c => atLine c.describe.1 none c.describe.2
  | undefined line name owner help =>
    atLine line none
      (utf8 "field '" ++ name ++ utf8 "' is not defined in " ++ owner ++ help)
  | mismatch line place found type need =>
    atLine line place (utf8 "cannot unmarshal TOML " ++ found ++ utf8 " into " ++ type
      ++ (if need.isEmpty then [] else utf8 " (need " ++ need ++ utf8 ")"))
  | outOfRange line place digits =>
    atLine line (some place) (utf8 "value " ++ digits ++ utf8 " is out of range for int")
  | tooLarge line place digits =>
    atLine line (some place)
      (utf8 "strconv.ParseFloat: parsing " ++ Text.quoted digits ++ utf8 ": value out of range")

/-- The number that signed decimal digits stand for. -/
def signedValue (digits : Text) : Int :=
  match digits with
  | 45 :: t => -(digitsValue t : Int)
  | 43 :: t => digitsValue t
  | t => digitsValue t

/-- What a value is called in messages, and what could have taken it. -/
def valueKind : Toml.Value → Text × Text
  | .datetime => (utf8 "datetime", [])
  | .integer _ => (utf8 "integer", [])
  | .float _ => (utf8 "float", [])
  | .boolean _ => (utf8 "boolean", [])
  | .string _ => (utf8 "string", [])
  | .array => (utf8 "array", utf8 "slice")

/-- Is the value a float beyond the largest number? -/
def isTooLarge (digits : Text) : Bool :=
  match Binary64.ofText? digits with
  | some (.infinite _) => true
  | _ => false

/-- The failure of a value where a type is needed. -/
def valueMismatch (line : Nat) (place : Text) (v : Toml.Value) (type : Text) : Problem :=
  let mismatch := Problem.mismatch line (some place) (valueKind v).1 type (valueKind v).2
  match v with
  | .float digits => if isTooLarge digits then .tooLarge line place digits else mismatch
  | _ => mismatch

/-- The failure of tables in an array where a type is needed. -/
def tablesMismatch (line : Nat) (place type : Text) : Problem :=
  .mismatch line (some place) (utf8 "array table") type (utf8 "slice")

/-- The layer with a setting from the file. -/
def setItem (k : Key) (i : Toml.Item) (l : Layer) : Except Problem Layer :=
  match i with
  | .value line (.integer digits) =>
    if k.isNumber then
      if Integer.fits (signedValue digits) then .ok (k.setInt (signedValue digits) l)
      else .error (.outOfRange line k.place digits)
    else .error (valueMismatch line k.place (.integer digits) k.typeName)
  | .value line (.string t) =>
    if k.isNumber then .error (valueMismatch line k.place (.string t) k.typeName)
    else .ok (k.setText t l)
  | .value line v => .error (valueMismatch line k.place v k.typeName)
  | .table line _ _ =>
    .error (.mismatch line none (utf8 "table") k.typeName (utf8 "struct or map"))
  | .tables line _ => .error (tablesMismatch line k.place k.typeName)

/-- The line of an item. -/
def itemLine : Toml.Item → Nat
  | .value line _ => line
  | .table line _ _ => line
  | .tables line _ => line

/-- The layer with a field of a group's table. -/
def setField (g : Group) (l : Layer) (f : Text × Toml.Item) : Except Problem Layer :=
  match Key.all.find? fun k => k.group = g && k.name = f.1 with
  | some k => setItem k f.2 l
  | none => .error (.undefined (itemLine f.2) f.1 g.typeName g.help)

/-- The layer with a table of the file. -/
def setGroup (l : Layer) (f : Text × Toml.Item) : Except Problem Layer :=
  match Group.all.find? fun g => g.name = f.1 with
  | none => .error (.undefined (itemLine f.2) f.1 rootTypeName [])
  | some g =>
    let place := rootTypeName ++ utf8 "." ++ g.name
    match f.2 with
    | .table _ _ fields => fields.foldlM (setField g) l
    | .value line v => .error (valueMismatch line place v g.typeName)
    | .tables line _ => .error (tablesMismatch line place g.typeName)

/-- The message of a problem with the file of the given name. -/
def Problem.inFile (p : Problem) (name : Text) : Text := name ++ utf8 ", " ++ p.message

end Settings

/-- The layer that the text of a file sets. -/
def Layer.ofText (t : Text) : Except Settings.Problem Layer :=
  match Toml.read? t with
  | none => .error .notToml
  | some es =>
    match Toml.Fields.ofEntries es with
    | .error c => .error (.conflict c)
    | .ok fs => fs.foldlM Settings.setGroup Layer.empty

end Scriptlet
