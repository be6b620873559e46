import Scriptlet.Number.Integer
import Scriptlet.Settings
import Scriptlet.Text.Quoted

/-!
# Flags

Arguments that start with a minus, or two, are flags; the value of a flag follows an equals sign or
is the next argument. Flags end at the first plain argument, and at `--`. If a flag is given more
than once, the last one counts. A flag that has a short form may be given in one of its forms only.
-/

namespace Scriptlet

/-- A flag. -/
inductive Flag where
  /-- The settings file. -/
  | config
  /-- How much is logged. -/
  | verbosity
  /-- No colours. -/
  | nocolor
  /-- Ask for help. -/
  | help
  /-- Ask for help, in short. -/
  | h
  /-- Ask for the version. -/
  | version
  /-- Ask for the version, in short. -/
  | v
  /-- The limit on nesting. -/
  | maxDepth
  /-- The format of trees. -/
  | format
  /-- The output file. -/
  | out
  /-- The number of workers. -/
  | workers
  /-- The size of the cache. -/
  | cacheSize
  deriving DecidableEq

/-- The value of a flag. -/
inductive FlagValue where
  /-- A text. -/
  | text (t : Text)
  /-- A number. -/
  | number (i : Int)
  /-- On or off. -/
  | switch (b : Bool)

/-- Why arguments cannot be read. -/
inductive FlagError where
  /-- Minus signs without a name. -/
  | badForm (argument : Text)
  /-- There is no such flag here. -/
  | undefined (name : Text)
  /-- The value is missing. -/
  | needsValue (name : Text)
  /-- The value is not of the flag's kind. -/
  | badValue (name value : Text)
  /-- The number has more than 64 bits. -/
  | outOfRange (name value : Text)
  /-- Neither on nor off. -/
  | badSwitch (name value : Text)
  /-- A flag in its long and its short form. -/
  | twoForms (long short : Text)

/-- Why arguments cannot be read, in words. -/
def FlagError.message : FlagError → Text
  | badForm a => utf8 "bad flag syntax: " ++ a
  | undefined n => utf8 "flag provided but not defined: -" ++ n
  | needsValue n => utf8 "flag needs an argument: -" ++ n
  | badValue n x =>
    utf8 "invalid value " ++ Text.quoted x ++ utf8 " for flag -" ++ n ++ utf8 ": parse error"
  | outOfRange n x =>
    utf8 "invalid value " ++ Text.quoted x ++ utf8 " for flag -" ++ n
      ++ utf8 ": value out of range"
  | badSwitch n x =>
    utf8 "invalid boolean value " ++ Text.quoted x ++ utf8 " for -" ++ n ++ utf8 ": parse error"
  | twoForms long short =>
    utf8 "Cannot use two forms of the same flag: " ++ short ++ utf8 " " ++ long

namespace Flag

/-- The name of a flag. -/
def name : Flag → Text
  | config => utf8 "config"
  | verbosity => utf8 "verbosity"
  | nocolor => utf8 "nocolor"
  | help => utf8 "help"
  | h => utf8 "h"
  | version => utf8 "version"
  | v => utf8 "v"
  | maxDepth => utf8 "maxdepth"
  | format => utf8 "format"
  | out => utf8 "out"
  | workers => utf8 "workers"
  | cacheSize => utf8 "cachesize"

/-- Can the flag stand without a value? -/
def isSwitch : Flag → Bool
  | nocolor | help | h | version | v => true
  | _ => false

/-- Is the value of the flag a number? -/
def isNumber : Flag → Bool
  | verbosity | maxDepth | workers | cacheSize => true
  | _ => false

/-- The spellings of on. -/
def onTexts : List Text :=
  [utf8 "1", utf8 "t", utf8 "T", utf8 "TRUE", utf8 "true", utf8 "True"]

/-- The spellings of off. -/
def offTexts : List Text :=
  [utf8 "0", utf8 "f", utf8 "F", utf8 "FALSE", utf8 "false", utf8 "False"]

/-- Reads the value of a flag. -/
def read (f : Flag) (x : Text) : Except FlagError FlagValue :=
  if f.isSwitch then
    if onTexts.contains x then .ok (.switch true)
    else if offTexts.contains x then .ok (.switch false)
    else .error (.badSwitch f.name x)
  else if f.isNumber then
    match Integer.ofText? x with
    | none => .error (.badValue f.name x)
    | some i => if Integer.fits i then .ok (.number i) else .error (.outOfRange f.name x)
  else .ok (.text x)

/-- The flags that ask for help, which may stand before a command and after it. -/
def helps : List Flag := [help, h]

/-- The flags that come before the command. -/
def general : List Flag := [config, verbosity, nocolor] ++ helps ++ [version, v]

/-- The flags with a short form, and that form. -/
def forms : List (Flag × Flag) := [(help, h), (version, v)]

end Flag

/-- What an argument is. -/
inductive Argument where
  /-- Not a flag. -/
  | plain
  /-- The end of the flags. -/
  | terminator
  /-- Minus signs without a name. -/
  | malformed
  /-- A flag, maybe with its value. -/
  | flag (name : Text) (value : Option Text)

namespace Argument

/-- A name, cut at the first equals sign after its first letter. -/
def cut (name : Text) : Argument :=
  match name with
  | [] => malformed
  | b :: t =>
    if b = 45 || b = 61 then malformed
    else
      match t.dropWhile (· != 61) with
      | [] => flag name none
      | _ :: value => flag (b :: t.takeWhile (· != 61)) (some value)

/-- Classifies an argument. -/
def of (a : Text) : Argument :=
  match a with
  | [45, 45] => terminator
  | [45] => plain
  | 45 :: 45 :: name => cut name
  | 45 :: name => cut name
  | _ => plain

end Argument

/-- Arguments that were read. -/
structure Arguments where
  /-- The flags with their values, first one first. -/
  flags : List (Flag × FlagValue)
  /-- The arguments after the flags. -/
  plain : List Text

namespace Arguments

/-- The flags at the front of arguments, where the given ones may stand, and what comes after them:
plain arguments, or why reading stops. -/
def scan (known : List Flag) : List Text → List (Flag × FlagValue) × Except FlagError (List Text)
  | [] => ([], .ok [])
  | a :: rest =>
    match Argument.of a with
    | .plain => ([], .ok (a :: rest))
    | .terminator => ([], .ok rest)
    | .malformed => ([], .error (.badForm a))
    | .flag name value =>
      match known.find? fun f => f.name = name with
      | none => ([], .error (.undefined name))
      | some f =>
        match value with
        | some x =>
          match f.read x with
          | .error e => ([], .error e)
          | .ok y => let (flags, after) := scan known rest; ((f, y) :: flags, after)
        | none =>
          if f.isSwitch then
            let (flags, after) := scan known rest
            ((f, .switch true) :: flags, after)
          else
            match rest with
            | [] => ([], .error (.needsValue name))
            | x :: rest =>
              match f.read x with
              | .error e => ([], .error e)
              | .ok y => let (flags, after) := scan known rest; ((f, y) :: flags, after)

/-- A flag that is given in both of its forms, if there is one. -/
def twoForms? (flags : List (Flag × FlagValue)) : Option FlagError :=
  let given (f : Flag) : Bool := flags.any fun x => x.1 = f
  (Flag.forms.find? fun x => given x.1 && given x.2).map fun x => .twoForms x.1.name x.2.name

/-- Reads arguments, where the given flags may stand. That a flag stands there in two forms is seen
also if reading stops behind them. -/
def read (known : List Flag) (args : List Text) : Except FlagError Arguments :=
  let (flags, after) := scan known args
  match twoForms? flags with
  | some e => .error e
  | none => after.map fun plain => ⟨flags, plain⟩

/-- Moves flags to the front: everything from the first flag on, up to `--`, comes before the plain
arguments in front of it. -/
def flagsFirst (args : List Text) : List Text :=
  let terminator : Text := utf8 "--"
  let isFlag (a : Text) : Bool := Text.startsWith a (utf8 "-") && a != utf8 "-"
  let head := args.takeWhile (· != terminator)
  let tail := args.dropWhile (· != terminator)
  match head.dropWhile (!isFlag ·) with
  | [] => args
  | flags => flags ++ head.takeWhile (!isFlag ·) ++ tail

/-- The value of a flag, the last one given. -/
def value? (a : Arguments) (f : Flag) : Option FlagValue := a.flags.reverse.lookup f

/-- The number given for a flag. -/
def number? (a : Arguments) (f : Flag) : Option Int :=
  match a.value? f with
  | some (.number i) => some i
  | _ => none

/-- The text given for a flag. -/
def text? (a : Arguments) (f : Flag) : Option Text :=
  match a.value? f with
  | some (.text t) => some t
  | _ => none

/-- Is the switch on? -/
def isOn (a : Arguments) (f : Flag) : Bool :=
  match a.value? f with
  | some (.switch b) => b
  | _ => false

/-- Is help asked for? -/
def asksHelp (a : Arguments) : Bool := Flag.helps.any a.isOn

/-- The layer of settings that flags give. -/
def layer (a : Arguments) : Layer :=
  ⟨a.number? .maxDepth, a.text? .format, a.text? .out, a.number? .workers, a.number? .cacheSize⟩

end Arguments

end Scriptlet
