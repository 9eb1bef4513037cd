import Residual.Memo.Reading
import Residual.Memo.Table

/-!
# Evaluation of memoized functions

`Recursion.solve` evaluates a recursive function whose defining equations may depend on each other
in cycles.  Every key is evaluated at most once a pass: a key met again is answered from the table.
An outermost call repeats its pass while the values it was provisionally answered with keep
changing; for monotone equations over a lattice of finite height this is Kleene iteration.

The nesting of evaluations is bounded by `fuel`.  Each nested evaluation is of another key, so the
number of keys is fuel enough.
-/

set_option autoImplicit false

namespace Residual.Memo

/-- Why an evaluation ended without an answer. -/
inductive Halt where
  /-- More evaluations were nested than the fuel allows. -/
  | outOfFuel
  /-- A table was to be cleared while it was in use. -/
  | tableInUse
  deriving DecidableEq

/-- A computation over a state that may end without an answer. -/
abbrev Eval (State : Type) : Type → Type := EStateM Halt State

namespace Eval

variable {State Answer : Type}

/-- Runs a computation that is known to answer.  If it did not, the answer would be `fallback`. -/
def settle (computation : Eval State Answer) (fallback : Answer) : StateM State Answer :=
  fun state =>
    match computation state with
    | .ok answer after => (answer, after)
    | .error _ after => (fallback, after)

instance : MonadLift (StateM State) (Eval State) where
  monadLift computation := fun state =>
    let (answer, after) := computation state
    .ok answer after

end Eval

/-- A recursive function over a state that holds its table. -/
structure Recursion (State Key Value : Type) [BEq Key] [Hashable Key] where
  table : State → Table Key Value
  modifyTable : (Table Key Value → Table Key Value) → State → State
  /-- The provisional value of a key under evaluation. -/
  bottom : Key → Eval State Value
  /-- The defining equation of a key, given the function itself. -/
  step : (Key → Eval State Value) → Key → Eval State Value
  /-- What is made of the bottom and the value of a key when its evaluation ends. -/
  finish : (key : Key) → (bottom value : Value) → Eval State Value := fun _ _ value => pure value
  /-- Takes note that another pass starts. -/
  noteRepeated : State → State
  /-- Takes note that the passes ran out after so many of them. -/
  noteExhausted : (passes : Nat) → State → State

namespace Recursion

variable {State Key Value : Type} [BEq Key] [Hashable Key]

/-- What the table knows about a key.  A question that is answered provisionally leaves its mark. -/
def lookup (function : Recursion State Key Value) (key : Key) :
    Eval State (Option Value) := do
  match (function.table (← get)).lookup key with
  | .known value => return some value
  | .reentrant value =>
      modify (function.modifyTable Table.markReentered)
      return some value
  | .unknown => return none

/-- Makes the pending values final although they may still change. -/
def giveUp (function : Recursion State Key Value) : Eval State Unit := do
  modify fun state =>
    function.noteExhausted (function.table state).passes.length state
  modify (function.modifyTable fun table => table.commit.markTruncated)

/-- Runs the passes of an outermost call: one, and up to `repetitions` more while the values are
unstable. -/
def passes (function : Recursion State Key Value) (key : Key) (pass : Eval State Value) :
    (repetitions : Nat) → Eval State Value
  | 0 => do
      let value ← pass
      if (function.table (← get)).unstable then
        function.giveUp
      else
        modify (function.modifyTable Table.commit)
      return value
  | repetitions + 1 => do
      let value ← pass
      if (function.table (← get)).unstable then
        modify (function.modifyTable (Table.restart key))
        modify function.noteRepeated
        function.passes key pass repetitions
      else
        modify (function.modifyTable Table.commit)
        return value

/-- The value of the function at a key. -/
def solve [BEq Value] (function : Recursion State Key Value) :
    (fuel : Nat) → Key → Eval State Value
  | 0, _ => throw .outOfFuel
  | fuel + 1, key => do
      if let some value ← function.lookup key then
        return value
      let outermost := !(function.table (← get)).inUse
      let bottom ← function.bottom key
      let pass : Eval State Value := do
        let value ← function.step (function.solve fuel) key
        let value ← function.finish key bottom value
        modify (function.modifyTable (Table.record key value))
        return value
      if outermost then
        modify (function.modifyTable fun table => table.startPasses.start key bottom)
        function.passes key pass (function.table (← get)).strategy.repetitions
      else
        modify (function.modifyTable (Table.start key bottom))
        pass

/-- The function whose equations are readings and change nothing but the table. -/
def ofReadings (table : State → Table Key Value)
    (modifyTable : (Table Key Value → Table Key Value) → State → State)
    (bottom : Key → Value) (equation : State → Key → Reading Key Value Value)
    (noteRepeated : State → State) (noteExhausted : Nat → State → State) :
    Recursion State Key Value where
  table
  modifyTable
  bottom key := pure (bottom key)
  step recur key := do (equation (← get) key).run recur
  noteRepeated
  noteExhausted

end Recursion

end Residual.Memo
