import Residual.Config
import Residual.Config.Wrapped
import Residual.Toml.Reader

/-!
# Configuration files

A configuration written in TOML.  What a file does not mention keeps its default, and entries with
other names are ignored.  A section can also be written as an array of its settings, and a date
in its place is a section without settings.  Values below the top table may be wrapped: see
`Residual.Config.Wrapped`.
-/

set_option autoImplicit false

namespace Residual

open Toml

namespace Config

/-- Why a file holds no configuration.  A path leads to the value at fault. -/
inductive FileError where
  /-- There is no text, it is not TOML, or a table has the reserved key. -/
  | unreadable
  | wrongType (path : List String)
  | negative (path : List String)
  /-- An array ends before the last setting. -/
  | tooShort (path : List String)
  deriving DecidableEq

namespace FileError

/-- The place of the value at fault, as a dotted key. -/
def place : FileError → String
  | unreadable => ""
  | wrongType path | negative path | tooShort path => ".".intercalate path

end FileError

/-- A limit, which is a natural number. -/
def readLimit (path : List String) : Value → Except FileError Nat
  | .integer value => if value < 0 then .error (.negative path) else .ok value.toNat
  | _ => .error (.wrongType path)

def readSwitch (path : List String) : Value → Except FileError Bool
  | .boolean value => .ok value
  | _ => .error (.wrongType path)

/-- The value of an optional setting. -/
def readOr {Setting : Type} (default : Setting) (read : Value → Except FileError Setting) :
    Option Value → Except FileError Setting
  | some value => read value
  | none => .ok default

/-- The setting at a position of an array. -/
def readItem {Setting : Type} (name : String) (items : List Value) (position : Nat)
    (read : List String → Value → Except FileError Setting) : Except FileError Setting :=
  match items[position]? with
  | some value => read [name, toString position] value
  | none => .error (.tooShort [name])

def readFixpoint (name : String) : Value → Except FileError FixpointConfig
  | .table entries => do
      let maxPasses ← readOr ({} : FixpointConfig).maxPasses (readLimit [name, "max_passes"])
        (entries.lookup "max_passes")
      return { maxPasses }
  | .array items => do
      let maxPasses ← readItem name items 0 readLimit
      return { maxPasses }
  | .time _ => .ok {}
  | _ => .error (.wrongType [name])

def readSimplify (name : String) : Value → Except FileError SimplifyConfig
  | .table entries => do
      let eachStep ← readOr ({} : SimplifyConfig).eachStep (readSwitch [name, "each_step"])
        (entries.lookup "each_step")
      let maxPasses ← readOr ({} : SimplifyConfig).maxPasses (readLimit [name, "max_passes"])
        (entries.lookup "max_passes")
      return { maxPasses, eachStep }
  | .array items => do
      let maxPasses ← readItem name items 0 readLimit
      let eachStep ← readItem name items 1 readSwitch
      return { maxPasses, eachStep }
  | .time _ => .ok {}
  | _ => .error (.wrongType [name])

/-- The configuration in a text. -/
def ofToml (text : String) : Except FileError Config := do
  match Toml.read? text >>= unwrapEntries? with
  | none => .error .unreadable
  | some entries =>
      let fixpoint ← readOr {} (readFixpoint "fixpoint") (entries.lookup "fixpoint")
      let simplify ← readOr {} (readSimplify "simplify") (entries.lookup "simplify")
      return { simplify, fixpoint }

/-- The configuration in a file, given its text if the file exists. -/
def ofFile (text? : Option String) : Except FileError Config :=
  match text? with
  | some text => ofToml text
  | none => .error .unreadable

end Config

end Residual
