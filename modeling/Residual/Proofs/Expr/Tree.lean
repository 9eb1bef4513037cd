import Residual.Grammar.Rendering
import Residual.Proofs.Expr.Language

/-!
# Expressions as trees

A tree is an expression whose operands are trees again, without numbers and links.  Its leaves may
be references that are not defined.  Questions about a tree are answered by plain recursion, where
an undefined reference is seen as `∅`.  Trees are equal if they are the same, so that an undefined
reference is equal to itself alone.
-/

set_option autoImplicit false

namespace Residual

/-- An expression with all operands in their places. -/
inductive Tree where
  /-- A reference that is not defined, by the link that stands for it. -/
  | undefined (link : ExprId)
  | node (e : Expr Tree)

namespace Tree

instance : Inhabited Tree := ⟨node .nil⟩

/-- The value of a tree, made from its operands and their values. -/
def recurse {Value : Type} (combine : Expr (Tree × Value) → Value) : Tree → Value
  | undefined _ => combine .nil
  | node .any => combine .any
  | node .empty => combine .empty
  | node .nil => combine .nil
  | node (.char c) => combine (.char c)
  | node (.range low high) => combine (.range low high)
  | node (.token text) => combine (.token text)
  | node (.alt left right) =>
      combine (.alt (left, left.recurse combine) (right, right.recurse combine))
  | node (.cat first second) =>
      combine (.cat (first, first.recurse combine) (second, second.recurse combine))
  | node (.not lang) => combine (.not (lang, lang.recurse combine))
  | node (.opt lang) => combine (.opt (lang, lang.recurse combine))
  | node (.plus lang) => combine (.plus (lang, lang.recurse combine))
  | node (.star lang) => combine (.star (lang, lang.recurse combine))
  | node (.rep lang count) => combine (.rep (lang, lang.recurse combine) count)

/-- The operator and the operands of a tree. -/
def root : Tree → Expr Tree
  | undefined _ => .nil
  | node e => e

/-- The language of the tree contains the empty string. -/
def Nullable : Tree → Prop :=
  recurse fun e => (e.map Prod.snd).nullable

/-- One more than the height of the highest operand. -/
def height : Tree → Nat :=
  recurse fun e => (e.operands.map Prod.snd).foldl max 0 + 1

/-- The text of a tree, where the operands stand in parentheses unless they are atomic. -/
def render : Tree → String :=
  recurse fun e => (e.map fun (operand, text) =>
    if operand.root.isAtomic then text else "(" ++ text ++ ")").render

/-- The derivative of a tree asks for those of lighter trees only, although that of an option asks
for that of a union, and those of ranges and literal strings ask for those of characters. -/
def weight : Tree → Nat :=
  recurse fun
    | .any | .empty | .nil | .char _ => 0
    | .range .. | .token _ => 1
    | .alt (_, x) (_, y) | .cat (_, x) (_, y) => x + y + 1
    | .not (_, x) | .plus (_, x) | .star (_, x) | .rep (_, x) _ => x + 1
    | .opt (_, x) => x + 2

theorem nullable_iff (tree : Tree) : tree.Nullable ↔ (tree.root.map Nullable).nullable := by
  rcases tree with link | e
  · rfl
  · cases e <;> rfl

theorem height_eq (tree : Tree) :
    tree.height = (tree.root.operands.map height).foldl max 0 + 1 := by
  rcases tree with link | e
  · rfl
  · cases e <;> rfl

theorem render_eq (tree : Tree) : tree.render = (tree.root.map fun operand =>
    if operand.root.isAtomic then operand.render else "(" ++ operand.render ++ ")").render := by
  rcases tree with link | e
  · rfl
  · cases e <;> rfl

theorem weight_operand {tree operand : Tree} (member : operand ∈ tree.root.operands) :
    operand.weight < tree.weight := by
  rcases tree with link | e
  · cases member
  · cases e with
    | alt x y | cat x y =>
        rcases List.mem_pair.mp member with rfl | rfl <;>
          change _ < weight _ + weight _ + 1 <;> omega
    | not x | plus x | star x | rep x _ =>
        obtain rfl := List.mem_singleton.mp member
        exact Nat.lt_succ_self _
    | opt x =>
        obtain rfl := List.mem_singleton.mp member
        exact Nat.lt_add_of_pos_right Nat.zero_lt_two
    | any | empty | nil | char _ | range _ _ | token _ => cases member

theorem weight_of_isAtomic {e : Expr Tree} (atomic : e.isAtomic = true) : (node e).weight = 0 := by
  cases e with
  | char _ | empty | nil => rfl
  | _ => cases atomic

end Tree

end Residual
