import Scriptlet.Parse
import Scriptlet.Tree.Format

/-!
# Settings

What a run of the program depends on, besides its arguments. Settings come in layers: the defaults,
a file, and flags; each layer may set some of them, and a later layer wins. Only the settings that
come out at the end have to be valid.
-/

namespace Scriptlet

/-- The settings of a run. -/
structure Settings where
  /-- The limit on nesting; zero stands for the default. -/
  maxDepth : Int
  /-- The name of the format in which trees are printed. -/
  format : Text
  /-- The file that output goes to; none if it is empty. -/
  out : Text
  /-- How many files are parsed at the same time. -/
  workers : Int
  /-- How many files a watch remembers. -/
  cacheSize : Int
  deriving DecidableEq

/-- Some of the settings. -/
structure Layer where
  /-- The limit on nesting. -/
  maxDepth : Option Int
  /-- The name of the format. -/
  format : Option Text
  /-- The output file. -/
  out : Option Text
  /-- The number of workers. -/
  workers : Option Int
  /-- The size of the cache. -/
  cacheSize : Option Int
  deriving DecidableEq

/-- The layer that sets nothing. -/
def Layer.empty : Layer := ⟨none, none, none, none, none⟩

namespace Settings

/-- The settings where nothing is set, on a machine with the given number of processors. -/
def default (processors : Int) : Settings :=
  ⟨defaultMaxDepth, utf8 "json", [], processors, 1024⟩

/-- The settings with those of a layer in their place. -/
def override (s : Settings) (l : Layer) : Settings :=
  ⟨l.maxDepth.getD s.maxDepth, l.format.getD s.format, l.out.getD s.out, l.workers.getD s.workers,
    l.cacheSize.getD s.cacheSize⟩

/-- Why settings cannot be used. -/
inductive Invalid where
  /-- There is no such format. -/
  | format (name : Text)
  /-- The limit on nesting is negative. -/
  | maxDepth (n : Int)
  /-- There is no worker. -/
  | workers (n : Int)
  /-- The cache has no room. -/
  | cacheSize (n : Int)

/-- Why settings cannot be used, in words. -/
def Invalid.message : Invalid → Text
  | format name => Format.unknown name ++ utf8 " (want json, spew or text)"
  | maxDepth n => utf8 "invalid MaxDepth " ++ Text.ofInt n
  | workers n => utf8 "invalid Workers " ++ Text.ofInt n ++ utf8 ", need at least 1"
  | cacheSize n => utf8 "invalid CacheSize " ++ Text.ofInt n ++ utf8 ", need at least 1"

/-- The first reason why settings cannot be used, if there is one. -/
def invalid? (s : Settings) : Option Invalid :=
  if (Format.ofName? s.format).isNone then some (.format s.format)
  else if s.maxDepth < 0 then some (.maxDepth s.maxDepth)
  else if s.workers < 1 then some (.workers s.workers)
  else if s.cacheSize < 1 then some (.cacheSize s.cacheSize)
  else none

/-- The settings as TOML. -/
def dump (s : Settings) : Text :=
  utf8 "[Parser]\nMaxDepth = " ++ Text.ofInt s.maxDepth
    ++ utf8 "\n\n[Output]\nFormat = " ++ Text.quoted s.format
    ++ (if s.out.isEmpty then [] else utf8 "\nOut = " ++ Text.quoted s.out)
    ++ utf8 "\n\n[Check]\nWorkers = " ++ Text.ofInt s.workers
    ++ utf8 "\n\n[Watch]\nCacheSize = " ++ Text.ofInt s.cacheSize ++ utf8 "\n"

end Settings

end Scriptlet
