import Scriptlet.Toml.Reader

/-!
# TOML documents

The entries of a text put together into nested tables. A name can be given once only; a table that
so far has no header, because it is inline or a table inside it was named, may still be given its
own.
-/

namespace Scriptlet.Toml

/-- What a key stands for. -/
inductive Item where
  /-- A value, and its line. -/
  | value (line : Nat) (v : Value)
  /-- A table, the line of its header, and whether it has a header of its own. -/
  | table (line : Nat) (headed : Bool) (fields : List (Text × Item))
  /-- Tables in an array, the line of the first, and the tables, last one first. -/
  | tables (line : Nat) (elements : List (List (Text × Item)))

/-- Keys with what they stand for, in the order in which they were first named. -/
abbrev Fields := List (Text × Item)

/-- Why entries do not make a document. -/
inductive Conflict where
  /-- A key is given twice. -/
  | keyTwice (line : Nat) (key : Text) (first : Nat)
  /-- A key is already a table. -/
  | keyIsTable (line : Nat) (key : Text) (first : Nat)
  /-- A key is already an array of tables. -/
  | keyIsTables (line : Nat) (key : Text)
  /-- A key on the way to a table already has a value. -/
  | keyInPath (line : Nat) (key : Text) (first : Nat)
  /-- A table is already a table. -/
  | tableTwice (line : Nat) (name : Text) (first : Nat)
  /-- A table is already an array of tables. -/
  | tableIsTables (line : Nat) (name : Text) (first : Nat)
  /-- A table already has a value. -/
  | tableIsValue (line : Nat) (name : Text) (first : Nat)
  /-- An array of tables is already a table. -/
  | tablesIsTable (line : Nat) (name : Text) (first : Nat)
  /-- An array of tables already has a value. -/
  | tablesIsValue (line : Nat) (name : Text) (first : Nat)
  /-- A string has an escape that stands for no character. -/
  | unreadable (line : Nat)

namespace Conflict

/-- A line number in hexadecimal digits. -/
def hexLine (n : Nat) : Text := (Nat.toDigits 16 n).map fun c => c.toNat.toUInt8

/-- A name between the quotes of a message. -/
def mention (what : String) (name : Text) : Text :=
  utf8 what ++ utf8 " `" ++ name ++ utf8 "' is in conflict "

/-- The line of a conflict and what it says. -/
def describe : Conflict → Nat × Text
  | keyTwice line k first =>
    (line, mention "key" k ++ utf8 "with line " ++ hexLine first ++ utf8 "d")
  | keyIsTable line k first =>
    (line, mention "key" k ++ utf8 "with table in line " ++ Text.ofNat first)
  | keyIsTables line k =>
    (line, utf8 "BUG: " ++ mention "key" k ++ utf8 "but it's unknown type `[]*ast.Table'")
  | keyInPath line k first => (line, mention "key" k ++ utf8 "with line " ++ Text.ofNat first)
  | tableTwice line n first =>
    (line, mention "table" n ++ utf8 "with table in line " ++ Text.ofNat first)
  | tableIsTables line n first =>
    (line, mention "table" n ++ utf8 "with array table in line " ++ Text.ofNat first)
  | tableIsValue line n first => (line, mention "table" n ++ utf8 "with line " ++ Text.ofNat first)
  | tablesIsTable line n first =>
    (line, mention "array table" n ++ utf8 "with table in line " ++ Text.ofNat first)
  | tablesIsValue line n first =>
    (line, mention "array table" n ++ utf8 "with line " ++ Text.ofNat first)
  | unreadable line => (line, utf8 "invalid syntax")

end Conflict

namespace Fields

/-- What a key stands for. -/
def get? (fs : Fields) (k : Text) : Option Item := fs.lookup k

/-- The fields with the key `k` standing for `i`, in its old place if it has one. -/
def put (k : Text) (i : Item) : Fields → Fields
  | [] => [(k, i)]
  | (k', i') :: fs => if k' = k then (k, i) :: fs else (k', i') :: put k i fs

/-- The fields with the table at the given path changed by `f`; tables on the way are made if they
do not exist, and of tables in an array the last one is meant. -/
def modify (line : Nat) (f : Fields → Except Conflict Fields) :
    List Text → Fields → Except Conflict Fields
  | [], fs => f fs
  | k :: ks, fs =>
    match fs.get? k with
    | none => do
      let inner ← modify line f ks []
      return fs.put k (.table line false inner)
    | some (.table l headed inner) => do
      let inner ← modify line f ks inner
      return fs.put k (.table l headed inner)
    | some (.tables l elements) =>
      match elements with
      | [] => .ok fs
      | inner :: others => do
        let inner ← modify line f ks inner
        return fs.put k (.tables l (inner :: others))
    | some (.value l _) => .error (.keyInPath line k l)

/-- A pair is added to a table. -/
def addPair (line : Nat) (k : Text) (v : Value) (fs : Fields) : Except Conflict Fields :=
  match fs.get? k with
  | none => .ok (fs.put k (.value line v))
  | some (.value first _) => .error (.keyTwice line k first)
  | some (.table first _ _) => .error (.keyIsTable line k first)
  | some (.tables _ _) => .error (.keyIsTables line k)

/-- A table is added under the key `k`, with a header of its own or not. -/
def addTable (headed : Bool) (line : Nat) (name k : Text) (fs : Fields) : Except Conflict Fields :=
  match fs.get? k with
  | none => .ok (fs.put k (.table line headed []))
  | some (.table first hadHeader inner) =>
    if hadHeader then .error (.tableTwice line name first)
    else .ok (fs.put k (.table line headed inner))
  | some (.tables first _) => .error (.tableIsTables line name first)
  | some (.value first _) => .error (.tableIsValue line name first)

/-- A table is added to the array under the key `k`. -/
def addElement (line : Nat) (name k : Text) (fs : Fields) : Except Conflict Fields :=
  match fs.get? k with
  | none => .ok (fs.put k (.tables line [[]]))
  | some (.tables first elements) => .ok (fs.put k (.tables first ([] :: elements)))
  | some (.table first _ _) => .error (.tablesIsTable line name first)
  | some (.value first _) => .error (.tablesIsValue line name first)

end Fields

/-- A document that is being put together: its fields, and the path of the table that pairs are
added to. -/
structure Document where
  /-- The fields. -/
  fields : Fields
  /-- The path of the current table. -/
  current : List Text

/-- The document with one more entry. -/
def Document.add (d : Document) : Entry → Except Conflict Document
  | .unreadable line => .error (.unreadable line)
  | .pair line k v => do
    let fs ← Fields.modify line (Fields.addPair line k v) d.current d.fields
    return { d with fields := fs }
  | .opening line k => do
    let fs ← Fields.modify line (Fields.addTable false line k k) d.current d.fields
    return ⟨fs, d.current ++ [k]⟩
  | .openingElement line k => do
    let fs ← Fields.modify line (Fields.addElement line k k) d.current d.fields
    return ⟨fs, d.current ++ [k]⟩
  | .closing => .ok { d with current := d.current.dropLast }
  | .table line name path => do
    let fs ← Fields.modify line
      (Fields.addTable true line name (path.getLastD [])) path.dropLast d.fields
    return ⟨fs, path⟩
  | .element line name path => do
    let fs ← Fields.modify line
      (Fields.addElement line name (path.getLastD [])) path.dropLast d.fields
    return ⟨fs, path⟩

/-- The fields that entries make. -/
def Fields.ofEntries (es : List Entry) : Except Conflict Fields := do
  let d ← es.foldlM Document.add ⟨[], []⟩
  return d.fields

end Scriptlet.Toml
