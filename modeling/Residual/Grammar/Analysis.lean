import Residual.Grammar.Basic

/-!
# Nullability, equality and height

Questions about an expression that leave the arena as it is.  Each is given by the equation of one
resolved expression over its operands.

On recursive rules nullability is the least solution of its equations and equality is the
greatest one: two expressions are equal unless a difference is found.
-/

set_option autoImplicit false

namespace Residual

open Memo

namespace Arena

/-- Whether the language of an expression contains the empty string. -/
def nullabilityEquation (arena : Arena) (id : ExprId) : Reading ExprId Bool Bool :=
  let nullable (operand : ExprId) : Reading ExprId Bool Bool := .read (arena.resolve operand)
  match arena.get id with
  | .alt left right => do
      let x ← nullable left
      let y ← nullable right
      return x || y
  | .cat first second => do
      let x ← nullable first
      let y ← nullable second
      return x && y
  | .not lang => return !(← nullable lang)
  | .rep _ (.finite 0) | .rep _ .infinite => return true
  | .rep lang _ => nullable lang
  | .plus lang => nullable lang
  | .any | .empty | .opt _ | .star _ => return true
  | .char _ | .nil | .range .. | .token _ => return false

/-- One more than the height of the highest operand. -/
def heightEquation (arena : Arena) (id : ExprId) : Reading ExprId Nat Nat := do
  let heights ← (arena.operands id).mapM fun operand => Reading.read operand
  return heights.foldl max 0 + 1

/-- Two resolved expressions in the order of their numbers, since equality is symmetric. -/
def unorderedPair (x y : ExprId) : ExprId × ExprId :=
  if x.number ≤ y.number then (x, y) else (y, x)

/-- Two expressions are equal if they have one number, or the same shape and equal operands.  An
unbound link may come to stand for anything and is equal to itself alone. -/
def equalityEquation (arena : Arena) : ExprId × ExprId → Reading (ExprId × ExprId) Bool Bool
  | (x, y) =>
      if x = y then
        return true
      else if arena.isUnbound x || arena.isUnbound y then
        return false
      else if (arena.get x).shape = (arena.get y).shape then
        ((arena.operands x).zip (arena.operands y)).foldlM (fun same (x, y) => do
          return (← .read (unorderedPair x y)) && same) true
      else
        return false

end Arena

namespace Grammar

def nullability : Recursion Grammar ExprId Bool :=
  analysis Tables.nullability (fun f tables => { tables with nullability := f tables.nullability })
    false Arena.nullabilityEquation

def heights : Recursion Grammar ExprId Nat :=
  analysis Tables.heights (fun f tables => { tables with heights := f tables.heights })
    0 Arena.heightEquation

def equalities : Recursion Grammar (ExprId × ExprId) Bool :=
  analysis Tables.equalities (fun f tables => { tables with equalities := f tables.equalities })
    true Arena.equalityEquation

def computeNullable (id : ExprId) : Eval Grammar Bool := do
  let arena := (← get).arena
  nullability.solve (arena.size + 1) (arena.resolve id)

def computeHeight (id : ExprId) : Eval Grammar Nat := do
  let arena := (← get).arena
  heights.solve (arena.size + 1) (arena.resolve id)

def computeEqual (x y : ExprId) : Eval Grammar Bool := do
  let arena := (← get).arena
  equalities.solve (arena.size * arena.size + 1)
    (Arena.unorderedPair (arena.resolve x) (arena.resolve y))

/-- Whether the language of an expression contains the empty string. -/
def nullable (id : ExprId) : StateM Grammar Bool :=
  (computeNullable id).settle false

/-- The height of an expression as a tree.  A recursive reference counts as zero. -/
def height (id : ExprId) : StateM Grammar Nat :=
  (computeHeight id).settle 0

/-- Whether two expressions are built in the same way. -/
def equal (x y : ExprId) : StateM Grammar Bool :=
  (computeEqual x y).settle true

end Grammar

end Residual
