import Std.Data.HashMap
import Residual.Expr

/-!
# Arenas

The expressions of a grammar, numbered in the order of creation.  A slot holds an expression or a
*link*, which is a reference to an expression that may be given later; through links, expressions
can contain themselves.  A link that leads nowhere yet is *unbound*.

`resolve` follows links.  Binding never closes a chain of links, so that the slots of an arena
are fuel enough to follow one to its end.
-/

set_option autoImplicit false

namespace Residual

/-- One entry of an arena. -/
inductive Slot where
  | expr (e : Expr ExprId)
  | link (target : Option ExprId)
  deriving DecidableEq

/-- All expressions of a grammar. -/
structure Arena where
  slots : Array Slot
  /-- The number of links that are not bound. -/
  unbound : Nat
  /-- The literal strings, numbered in the order of their first use. -/
  literals : Std.HashMap String Nat

namespace ExprId

/-- The expression `.` of every arena. -/
def any : ExprId := ⟨0⟩

/-- The expression `ε` of every arena. -/
def empty : ExprId := ⟨1⟩

/-- The expression `∅` of every arena. -/
def nil : ExprId := ⟨2⟩

end ExprId

namespace Arena

/-- The arena of the three expressions that every arena has. -/
def initial : Arena where
  slots := #[.expr .any, .expr .empty, .expr .nil]
  unbound := 0
  literals := ∅

instance : Inhabited Arena := ⟨initial⟩

/-- The number of slots, links included. -/
def size (arena : Arena) : Nat :=
  arena.slots.size

def slot? (arena : Arena) (id : ExprId) : Option Slot :=
  arena.slots[id.number]?

def isLink (arena : Arena) (id : ExprId) : Bool :=
  match arena.slot? id with
  | some (.link _) => true
  | _ => false

def isUnbound (arena : Arena) (id : ExprId) : Bool :=
  match arena.slot? id with
  | some (.link none) => true
  | _ => false

/-- Follows at most `steps` links. -/
def follow (arena : Arena) : (steps : Nat) → ExprId → ExprId
  | 0, id => id
  | steps + 1, id =>
      match arena.slot? id with
      | some (.link (some target)) => arena.follow steps target
      | _ => id

/-- What an expression number stands for: the end of its chain of links, which is an expression or
an unbound link. -/
def resolve (arena : Arena) (id : ExprId) : ExprId :=
  arena.follow arena.size id

/-- The expression that a number stands for.  An unbound link is seen as `∅`. -/
def get (arena : Arena) (id : ExprId) : Expr ExprId :=
  match arena.slot? (arena.resolve id) with
  | some (.expr e) => e
  | _ => .nil

/-- The expression that a number stands for, if it is known already. -/
def get? (arena : Arena) (id : ExprId) : Option (Expr ExprId) :=
  if arena.isUnbound (arena.resolve id) then none else some (arena.get id)

/-- The operands of what a number stands for, resolved. -/
def operands (arena : Arena) (id : ExprId) : List ExprId :=
  (arena.get id).operands.map arena.resolve

private def allocate (slot : Slot) (arena : Arena) : ExprId × Arena :=
  (⟨arena.size⟩, { arena with slots := arena.slots.push slot })

/-- Adds an expression.  The three expressions of every arena are shared, all others are new. -/
def push (e : Expr ExprId) (arena : Arena) : ExprId × Arena :=
  match e with
  | .any => (.any, arena)
  | .empty => (.empty, arena)
  | .nil => (.nil, arena)
  | e => arena.allocate (.expr e)

/-- Adds an unbound link. -/
def reserve (arena : Arena) : ExprId × Arena :=
  { arena with unbound := arena.unbound + 1 }.allocate (.link none)

/-- Binds a link to a target if it is unbound, and tells whether it was.  A link that would stand
for itself stands for `∅`, the least solution of `X = X`.  Nothing else can be bound. -/
def bind (link target : ExprId) (arena : Arena) : Bool × Arena :=
  if arena.isUnbound link then
    let target := if arena.resolve target = link then .nil else target
    (true, { arena with
      slots := arena.slots.set! link.number (.link (some target))
      unbound := arena.unbound - 1 })
  else
    (false, arena)

/-- Numbers a literal string, if it is new. -/
def intern (text : String) (arena : Arena) : Arena :=
  { arena with literals := arena.literals.insertIfNew text arena.literals.size }

/-- The number of a literal string that was used before. -/
def literal? (arena : Arena) (text : String) : Option Nat :=
  arena.literals[text]?

end Arena

end Residual
