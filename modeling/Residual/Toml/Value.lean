/-!
# TOML values

The values of a TOML document, and how its statements build them.  A table can be given piece by
piece: by headers, which may name a table once, and by dotted keys, which extend only tables that
dotted keys made.  While a document is read its tables remember how they came about.
-/

set_option autoImplicit false

namespace Residual.Toml

/-- A value of a document.  Floats, dates and times are kept as they are written. -/
inductive Value where
  | string (text : String)
  | integer (value : Int)
  | float (text : String)
  | boolean (value : Bool)
  | time (text : String)
  | array (items : List Value)
  | table (entries : List (String × Value))

/-- How a table came about. -/
inductive Origin where
  /-- By its own header. -/
  | header
  /-- By the header of a table below it. -/
  | implied
  /-- By a dotted key. -/
  | dotted
  deriving DecidableEq

/-- An entry of a document that is not complete yet. -/
inductive Node where
  | value (known : Value)
  | table (origin : Origin) (entries : List (String × Node))
  /-- An array of tables, each of which has its own header. -/
  | tables (elements : List (List (String × Node)))

/-- The entries of a table, in the order of their keys' first use. -/
abbrev Entries := List (String × Node)

namespace Node

mutual

/-- The value of an entry in the complete document. -/
def toValue : Node → Value
  | value known => known
  | table _ entries => .table (entriesToValues entries)
  | tables elements => .array (elementsToValues elements)

def entriesToValues : List (String × Node) → List (String × Value)
  | [] => []
  | (key, node) :: rest => (key, node.toValue) :: entriesToValues rest

def elementsToValues : List (List (String × Node)) → List Value
  | [] => []
  | entries :: rest => .table (entriesToValues entries) :: elementsToValues rest

end

end Node

namespace Entries

/-- Changes the entry of a key, or makes one, unless `change` refuses. -/
def update (key : String) (change : Option Node → Option Node) (entries : Entries) :
    Option Entries :=
  match entries with
  | [] => do return [(key, ← change none)]
  | (other, node) :: rest =>
      if other = key then do
        return (other, ← change (some node)) :: rest
      else do
        return (other, node) :: (← update key change rest)

/-- Changes the last of several tables. -/
def updateLast (change : Entries → Option Entries) : List Entries → Option (List Entries)
  | [] => none
  | [last] => do return [← change last]
  | first :: rest => do return first :: (← updateLast change rest)

/-- Adds the value of a dotted key, which must be new.  The tables on the way are made or were made
by dotted keys. -/
def insert (value : Value) (key : String) : (path : List String) → Entries → Option Entries
  | [], entries => entries.update key fun
      | none => some (.value value)
      | some _ => none
  | first :: path, entries => entries.update first fun
      | none => do return .table .dotted (← insert value key path [])
      | some (.table .header _) => none
      | some (.table origin inner) => do
          if path.isEmpty && origin != .dotted then
            none
          else
            return .table origin (← insert value key path inner)
      | some (.tables elements) => do
          if path.isEmpty then
            none
          else
            return .tables (← updateLast (insert value key path) elements)
      | some (.value _) => none

/-- Changes the entry that a header names.  The tables on the way are made if there are none. -/
def define (change : Option Node → Option Node) (key : String) :
    (path : List String) → Entries → Option Entries
  | [], entries => entries.update key change
  | first :: path, entries => entries.update first fun
      | none => do return .table .implied (← define change key path [])
      | some (.table origin inner) => do
          return .table origin (← define change key path inner)
      | some (.tables elements) => do
          return .tables (← updateLast (define change key path) elements)
      | some (.value _) => none

end Entries

/-- A key with the names of the tables before it. -/
structure Path where
  tables : List String
  key : String

/-- One line of a document: a key with its value. -/
structure Setting where
  path : Path
  value : Value

namespace Setting

/-- The entries that settings add to those of a table. -/
def insertAll (settings : List Setting) (entries : Entries) : Option Entries :=
  settings.foldlM (fun entries setting =>
    entries.insert setting.value setting.path.key setting.path.tables) entries

/-- The value of a table that is written within a line. -/
def inlineTable? (settings : List Setting) : Option Value := do
  return .table (Node.entriesToValues (← insertAll settings []))

end Setting

/-- What a header introduces. -/
inductive HeaderKind where
  /-- `[path]`, a table. -/
  | table
  /-- `[[path]]`, one more table of an array. -/
  | element
  deriving DecidableEq

/-- A header with the settings below it. -/
structure Section where
  kind : HeaderKind
  path : Path
  settings : List Setting

namespace Section

/-- The table of a section.  It can extend a table that was only implied. -/
def change (part : Section) : Option Node → Option Node :=
  match part.kind with
  | .table => fun
      | none => do return .table .header (← Setting.insertAll part.settings [])
      | some (.table .implied entries) => do
          return .table .header (← Setting.insertAll part.settings entries)
      | some _ => none
  | .element => fun
      | none => do return .tables [← Setting.insertAll part.settings []]
      | some (.tables elements) => do
          return .tables (elements ++ [← Setting.insertAll part.settings []])
      | some _ => none

end Section

/-- The statements of a document. -/
structure Document where
  /-- The settings before the first header. -/
  settings : List Setting
  sections : List Section

namespace Document

/-- The entries of the document's top table, unless a statement contradicts an earlier one. -/
def entries? (document : Document) : Option (List (String × Value)) := do
  let top ← Setting.insertAll document.settings []
  let entries ← document.sections.foldlM (fun entries part =>
    Entries.define part.change part.path.key part.path.tables entries) top
  return Node.entriesToValues entries

end Document

end Residual.Toml
