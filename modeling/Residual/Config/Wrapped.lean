import Residual.Toml.Value

/-!
# Wrapped values

A value of a configuration file may be wrapped in a table: a table with the key `wrapperKey` stands
for the value of that key, whatever else it holds.  `unwrap?` puts what is wrapped in the place of
its wrapper, at every depth.
-/

set_option autoImplicit false

namespace Residual.Config

open Toml

/-- The key of the value that a table stands for. -/
def wrapperKey : String := "___figment_value_value"

/-- A key that no table within a file may have. -/
def reservedKey : String := "___figment_value_id"

/-- The value that a table with these entries stands for. -/
def standIn (entries : List (String × Value)) : Value :=
  (entries.lookup wrapperKey).getD (.table entries)

mutual

/-- A value without wrappers, unless a table of it has the reserved key. -/
def unwrap? : Value → Option Value
  | .array items => do return .array (← unwrapItems? items)
  | .table entries => do
      let entries ← unwrapEntries? entries
      if (entries.lookup reservedKey).isSome then none else some (standIn entries)
  | value => some value

def unwrapItems? : List Value → Option (List Value)
  | [] => some []
  | item :: rest => do return (← unwrap? item) :: (← unwrapItems? rest)

/-- The entries of a table with their values unwrapped.  The table stays. -/
def unwrapEntries? : List (String × Value) → Option (List (String × Value))
  | [] => some []
  | (key, value) :: rest => do return (key, ← unwrap? value) :: (← unwrapEntries? rest)

end

end Residual.Config
