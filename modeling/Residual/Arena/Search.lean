import Std.Data.HashSet
import Residual.Arena.Basic

/-!
# Reachable expressions

Two orders on the slots that can be reached from an expression.  Depth first, links are listed too,
each one before what it stands for.  Breadth first, every number is resolved, and the result is a
*listing*: a copy of the reachable graph whose operands are positions of the listing itself.
-/

set_option autoImplicit false

namespace Residual

namespace Arena

/-- The slots to visit right after a slot: the operands of an expression, or what a link stands
for. -/
def successors (arena : Arena) (id : ExprId) : List ExprId :=
  if arena.isLink id then
    let target := arena.resolve id
    if target = id then [] else [target]
  else
    (arena.get id).operands

/-- The slots to put on the stack when a slot is visited, which leave out operands that were visited
before. -/
def pushed (arena : Arena) (visited : Std.HashSet ExprId) (id : ExprId) : List ExprId :=
  if arena.isLink id then
    arena.successors id
  else
    (arena.successors id).filter fun next => !visited.contains next

/-- Visits the slots of a stack depth first, from left to right, and lists those that were not
visited before.  Each slot is expanded once, to at most two successors, so that twice the size of
the arena and the slots of the stack bound the number of steps. -/
def visit (arena : Arena) : (steps : Nat) → (stack : List ExprId) →
    (visited : Std.HashSet ExprId) → (order : Array ExprId) → Array ExprId
  | 0, _, _, order | _, [], _, order => order
  | steps + 1, id :: stack, visited, order =>
      if visited.contains id then
        arena.visit steps stack visited order
      else
        let visited := visited.insert id
        arena.visit steps (arena.pushed visited id ++ stack) visited (order.push id)

/-- The slots that can be reached from an expression, in depth first order. -/
def depthFirst (arena : Arena) (root : ExprId) : List ExprId :=
  (arena.visit (2 * arena.size + 1) [root] ∅ #[]).toList

/-- The first unbound link in depth first order. -/
def firstUnbound? (arena : Arena) (root : ExprId) : Option ExprId :=
  (arena.depthFirst root).find? arena.isUnbound

end Arena

/-- A copy of an expression graph.  Operands are positions in the list, the root is at position
zero, and an entry without an expression is an unbound link. -/
abbrev Listing := List (Option (Expr Nat))

namespace Arena

/-- Numbers the resolved expressions that are not numbered yet, in order. -/
def enqueue (ids : List ExprId) (order : Array ExprId)
    (position : Std.HashMap ExprId Nat) : Array ExprId × Std.HashMap ExprId Nat :=
  ids.foldl (fun (order, position) id =>
    if position.contains id then (order, position)
    else (order.push id, position.insert id order.size)) (order, position)

/-- Extends a breadth first order that is complete up to `next`. -/
def widen (arena : Arena) : (steps next : Nat) → (order : Array ExprId) →
    (position : Std.HashMap ExprId Nat) → Array ExprId × Std.HashMap ExprId Nat
  | 0, _, order, position => (order, position)
  | steps + 1, next, order, position =>
      match order[next]? with
      | none => (order, position)
      | some id =>
          let (order, position) := enqueue (arena.operands id) order position
          arena.widen steps (next + 1) order position

/-- The graph below an expression, in breadth first order. -/
def listing (arena : Arena) (root : ExprId) : Listing :=
  let root := arena.resolve root
  let (order, position) :=
    arena.widen (arena.size + 1) 0 #[root] ((∅ : Std.HashMap ExprId Nat).insert root 0)
  order.toList.map fun id =>
    (arena.get? id).map fun e => e.map fun operand => position.getD (arena.resolve operand) 0

end Arena

end Residual
