import Residual.Store

/-!
# Memoization tables

A table remembers the values of a recursive function.  While an outermost call is in progress its
results are *pending*: a key that is reached again is answered with its pending value, so that
evaluation ends on circular dependencies too.  When the outermost call is over, its pending values
are *settled* and never change again.

A table is in use exactly while it has pending values.
-/

set_option autoImplicit false

namespace Residual.Memo

/-- What happens when an outermost call has met values that were still changing. -/
inductive Strategy where
  /-- The first pass is final. -/
  | singlePass
  /-- Passes are repeated until no value changes, up to `maxPasses` of them. -/
  | iterate (maxPasses : Nat)
  deriving DecidableEq, Inhabited

namespace Strategy

def iterates : Strategy → Bool
  | singlePass => false
  | iterate _ => true

/-- The number of passes that may follow the first one. -/
def repetitions : Strategy → Nat
  | singlePass => 0
  | iterate maxPasses => maxPasses - 1

end Strategy

/-- How far the evaluation of a pending key has come. -/
inductive Phase where
  /-- Its evaluation has started and not ended. -/
  | running
  /-- It was evaluated in this pass. -/
  | evaluated
  /-- Its value is left from an earlier pass. -/
  | carried
  deriving DecidableEq, Inhabited

/-- A value that may still change. -/
structure Provisional (Value : Type) where
  value : Value
  phase : Phase

/-- What a table knows about a key. -/
inductive Lookup (Value : Type) where
  /-- The value to answer with. -/
  | known (value : Value)
  /-- The key is being evaluated; this is its provisional value. -/
  | reentrant (value : Value)
  /-- The key has to be evaluated. -/
  | unknown

/-- The values of a recursive function, as far as they are known. -/
structure Table (Key Value : Type) [BEq Key] [Hashable Key] where
  strategy : Strategy
  settled : Store Key Value := ∅
  pending : Store Key (Provisional Value) := ∅
  /-- A key under evaluation was reached again during this pass. -/
  reentered : Bool := false
  /-- Some value changed during this pass. -/
  changed : Bool := false
  /-- Some settled values were still changing when the passes ran out. -/
  truncated : Bool := false
  /-- The keys whose evaluation has started in this pass, the last one first. -/
  visited : List Key := []
  /-- Those of the earlier passes of the same outermost call, the last pass first. -/
  earlier : List (List Key) := []

namespace Table

variable {Key Value : Type} [BEq Key] [Hashable Key]

def empty (strategy : Strategy) : Table Key Value := { strategy }

instance : Inhabited (Table Key Value) := ⟨empty default⟩

/-- The settled value of a key. -/
def get? (table : Table Key Value) (key : Key) : Option Value :=
  table.settled[key]?

/-- The number of settled values. -/
def size (table : Table Key Value) : Nat :=
  table.settled.size

def isEmpty (table : Table Key Value) : Bool :=
  table.settled.isEmpty

/-- Some evaluation is in progress. -/
def inUse (table : Table Key Value) : Bool :=
  !table.pending.isEmpty

/-- Forgets every value.  A table in use cannot be cleared. -/
def clear? (table : Table Key Value) : Option (Table Key Value) :=
  if table.inUse then none else some (empty table.strategy)

def lookup (table : Table Key Value) (key : Key) : Lookup Value :=
  match table.settled[key]? with
  | some value => .known value
  | none =>
      match table.pending[key]? with
      | some ⟨value, .running⟩ => .reentrant value
      | some ⟨value, .evaluated⟩ => .known value
      | some ⟨_, .carried⟩ | none => .unknown

/-- The keys that were evaluated in each pass of the last outermost call, the last pass first. -/
def passes (table : Table Key Value) : List (List Key) :=
  table.visited :: table.earlier

def markReentered (table : Table Key Value) : Table Key Value :=
  { table with reentered := true }

/-- Starts the first pass of an outermost call. -/
def startPasses (table : Table Key Value) : Table Key Value :=
  { table with reentered := false, changed := false, visited := [], earlier := [] }

/-- Starts the evaluation of a key.  The value of an earlier pass, if there is one, is kept. -/
def start (key : Key) (bottom : Value) (table : Table Key Value) : Table Key Value :=
  { table with
    pending := table.pending.insert key <|
      match table.pending[key]? with
      | some earlier => { earlier with phase := .running }
      | none => ⟨bottom, .running⟩
    visited := key :: table.visited }

/-- Ends the evaluation of a key with its value. -/
def record [BEq Value] (key : Key) (value : Value) (table : Table Key Value) : Table Key Value :=
  let same := (table.pending[key]?).any fun earlier => earlier.value == value
  { table with
    pending := table.pending.insert key ⟨value, .evaluated⟩
    changed := table.changed || !same }

/-- Another pass may give other values: some key was answered provisionally, and values changed. -/
def unstable (table : Table Key Value) : Bool :=
  table.strategy.iterates && table.reentered && table.changed

/-- Starts the next pass at its outermost key, from the values of the last pass. -/
def restart (key : Key) (table : Table Key Value) : Table Key Value :=
  { table with
    pending := (table.pending.map fun _ earlier => { earlier with phase := .carried }).modify key
      fun earlier => { earlier with phase := .running }
    reentered := false
    changed := false
    visited := [key]
    earlier := table.passes }

/-- Makes the pending values final. -/
def commit (table : Table Key Value) : Table Key Value :=
  { table with
    settled := table.settled.union (table.pending.map fun _ provisional => provisional.value)
    pending := ∅ }

def markTruncated (table : Table Key Value) : Table Key Value :=
  { table with truncated := true }

end Table

end Residual.Memo
