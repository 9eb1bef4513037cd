import Residual.Journal
import Residual.Memo.Solve

/-!
# Systems of integer equations

A small language of equations, one for each key `0, 1, …`, with a table for their values.  It is
memoized evaluation at its plainest: the state is a table, and an equation reads other keys.
-/

set_option autoImplicit false

namespace Residual.Memo

/-- The right-hand side of an equation.  A truth value is an integer: zero is false. -/
inductive Term where
  | const (value : Int)
  /-- The key whose equation this is. -/
  | self
  /-- The value of a key. -/
  | at (key : Nat)
  /-- The value of the key at a distance from this one, or zero if there is none. -/
  | offset (distance : Int)
  | add (left right : Term)
  | sub (left right : Term)
  | max (left right : Term)
  | min (left right : Term)
  | or (left right : Term)
  | and (left right : Term)
  | not (operand : Term)
  /-- Only the branch that is chosen is evaluated. -/
  | cond (condition positive negative : Term)
  /-- Clears the table, then zero. -/
  | clear

/-- The nearest integer between minus and plus one million. -/
def clamp (value : Int) : Int :=
  Max.max (-1000000) (Min.min value 1000000)

/-- One if the proposition holds and zero if not. -/
def truth (holds : Bool) : Int :=
  if holds then 1 else 0

/-- What an equation asks for. -/
inductive Request where
  /-- The value of a key. -/
  | value (key : Nat)
  /-- That the table be cleared, which is answered with zero. -/
  | clear
  deriving DecidableEq

namespace Term

/-- Two operands, the left one first, and what is made of them. -/
def both (combine : Int → Int → Int) (left right : Reading Request Int Int) :
    Reading Request Int Int := do
  let x ← left
  let y ← right
  return combine x y

/-- What a right-hand side in the equation of `key` asks for and answers, when there are `size`
keys. -/
def reading (size key : Nat) : Term → Reading Request Int Int
  | const value => return value
  | self => return key
  | .at key => .read (.value key)
  | offset distance =>
      let target := (key : Int) + distance
      if 0 ≤ target ∧ target < size then .read (.value target.toNat) else return 0
  | add left right => both (fun x y => clamp (x + y)) (reading size key left) (reading size key right)
  | sub left right => both (fun x y => clamp (x - y)) (reading size key left) (reading size key right)
  | max left right => both Max.max (reading size key left) (reading size key right)
  | min left right => both Min.min (reading size key left) (reading size key right)
  | or left right =>
      both (fun x y => truth (x != 0 || y != 0)) (reading size key left) (reading size key right)
  | and left right =>
      both (fun x y => truth (x != 0 && y != 0)) (reading size key left) (reading size key right)
  | not operand => do return truth ((← reading size key operand) == 0)
  | cond condition positive negative => do
      if (← reading size key condition) != 0 then
        reading size key positive
      else
        reading size key negative
  | clear => .read .clear

end Term

/-- What is made of the bottom of a key and the value of its equation. -/
inductive Settling where
  | value
  | sum
  | maximum
  | bottom
  deriving DecidableEq

def Settling.apply (settling : Settling) (bottom value : Int) : Int :=
  match settling with
  | .value => value
  | .sum => clamp (value + bottom)
  | .maximum => Max.max value bottom
  | .bottom => bottom

/-- A system of equations with the values found so far. -/
structure Equations where
  terms : Array Term
  /-- The bottoms of the first keys.  All later keys have the last one. -/
  bottoms : Array Int := #[]
  settling : Settling := .value
  table : Table Nat Int
  /-- The keys that were evaluated, in order. -/
  evaluated : Array Nat := #[]
  journal : Journal := {}

namespace Equations

def bottom (equations : Equations) (key : Nat) : Int :=
  (equations.bottoms[key]? <|> equations.bottoms.back?).getD 0

/-- The equation of a key.  A key without an equation is zero. -/
def equation (equations : Equations) (key : Nat) : Reading Request Int Int :=
  match equations.terms[key]? with
  | some term => term.reading equations.terms.size key
  | none => return 0

/-- Forgets every value found so far, unless values are being computed. -/
def clear : Eval Equations Unit := do
  match (← get).table.clear? with
  | some table => modify fun equations => { equations with table }
  | none => throw .tableInUse

/-- Answers what an equation asks for. -/
def answer (recur : Nat → Eval Equations Int) : Request → Eval Equations Int
  | .value key => recur key
  | .clear => do
      clear
      return 0

/-- The function that the equations define. -/
def solution : Recursion Equations Nat Int where
  table := Equations.table
  modifyTable f equations := { equations with table := f equations.table }
  bottom key := return (← get).bottom key
  step recur key := do
    modify fun equations => { equations with evaluated := equations.evaluated.push key }
    ((← get).equation key).run (answer recur)
  finish _ bottom value := return (← get).settling.apply bottom value
  noteRepeated equations :=
    { equations with journal := equations.journal.note .passRepeated }
  noteExhausted passes equations :=
    { equations with journal := equations.journal.note (.passesExhausted passes) }

/-- The value of a key, and the keys that were evaluated to find it. -/
def solve (key : Nat) : Eval Equations (Int × Array Nat) := do
  modify fun equations => { equations with evaluated := #[] }
  let value ← solution.solve ((← get).terms.size + 1) key
  return (value, (← get).evaluated)

end Equations

end Residual.Memo
