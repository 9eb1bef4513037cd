import Mathlib.Data.List.Perm.Basic
import Residual.Proofs.Expr.Related

/-!
# Alternations and how far they are from order

An alternation is a union with its unions as operands laid open.  Two kinds of steps bring it to
normal form.  A union on the left is turned around, so that the alternation leans to the right, and
the higher one of two neighbours moves to the right.

Each kind may undo what the other one did, and heights that were found while an operand was not
known yet may be wrong, so that a step leads away from the right order.  The `potential` falls
anyway: it counts pairs of parts in the wrong order, how far the alternation leans to the left, and,
with a weight that outdoes both, the parts in front of unions whose height is wrong.
-/

set_option autoImplicit false

namespace Residual

/-- How much there is of an expression.  An operator weighs something beside its operands. -/
def Expr.mass : Expr Nat → Nat
  | any | empty | nil | char _ | token _ => 1
  | range _ _ => 2
  | alt x y | cat x y => x + y + 1
  | not x | opt x | plus x | star x => x + 1
  | rep x _ => x + 2

namespace Expr

variable {Operand : Type} {e : Expr Operand} {f g : Operand → Nat}

theorem mass_pos (e : Expr Nat) : 0 < e.mass := by
  cases e <;> exact Nat.succ_pos _

theorem lt_mass_map {o : Operand} (member : o ∈ e.operands) : f o < (e.map f).mass := by
  cases e <;> simp_all [operands, map, mass]
  all_goals grind

theorem mass_map_le (each : ∀ o ∈ e.operands, f o ≤ g o) : (e.map f).mass ≤ (e.map g).mass := by
  cases e <;> simp_all [operands, map, mass]
  all_goals omega

/-- What is not lighter as a whole has no operand that is lighter. -/
theorem eq_of_mass_map_le (each : ∀ o ∈ e.operands, f o ≤ g o)
    (heavy : (e.map g).mass ≤ (e.map f).mass) : ∀ o ∈ e.operands, f o = g o := by
  cases e <;> simp_all [operands, map, mass]
  all_goals omega

end Expr

/-- A union with its unions as operands laid open. -/
inductive Alternation (Node : Type) where
  | part (x : Node)
  | sum (x : Node) (left right : Alternation Node)

namespace Alternation

variable {Node : Type} (height : Node → Option Nat) (Graded : Node → Prop)
  {s t : Alternation Node} {x y : Node} {l r r' : List Node}

/-- What a union is of, from left to right. -/
def parts : Alternation Node → List Node
  | part x => [x]
  | sum _ left right => left.parts ++ right.parts

open Classical in
/-- The number of unions that are not graded. -/
noncomputable def stale : Alternation Node → Nat
  | part _ => 0
  | sum x left right => (if Graded x then 0 else 1) + left.stale + right.stale

/-- The first one is known to be higher. -/
def isAbove (x y : Node) : Bool :=
  match height x, height y with
  | some h, some h' => h' < h
  | _, _ => false

/-- The number of pairs of nodes from two lists of which the first one is higher. -/
def crossings : List Node → List Node → Nat
  | [], _ => 0
  | x :: l, r => r.countP (fun y => isAbove height x y) + crossings l r

/-- How far the alternation is from the right order.  The weight of graded unions is `cost`. -/
noncomputable def potential (cost : Nat) : Alternation Node → Nat
  | part _ => 0
  | sum _ left right =>
      left.potential cost + right.potential cost +
        cost * (left.parts.length * right.stale Graded) +
        crossings height left.parts right.parts + left.parts.length

theorem parts_length_pos (s : Alternation Node) : 0 < s.parts.length := by
  induction s with
  | part _ => exact Nat.one_pos
  | sum _ _ _ first _ =>
      rw [parts, List.length_append]
      exact Nat.add_pos_left first _

variable {height} {Graded}

theorem isAbove_iff : isAbove height x y = true ↔
    ∃ h h', height x = some h ∧ height y = some h' ∧ h' < h := by
  unfold isAbove
  split
  · rename_i h h' isHeight isHeight'
    simp [isHeight, isHeight']
  · rename_i unknown
    simp only [Bool.false_eq_true, false_iff]
    rintro ⟨h, h', isHeight, isHeight', _⟩
    exact unknown h h' isHeight isHeight'

theorem crossings_append_left : crossings height (l ++ r) r' =
    crossings height l r' + crossings height r r' := by
  induction l with
  | nil => simp [crossings]
  | cons x l inductionHypothesis => simp [crossings, inductionHypothesis, Nat.add_assoc]

theorem crossings_append_right : crossings height l (r ++ r') =
    crossings height l r + crossings height l r' := by
  induction l with
  | nil => rfl
  | cons x l inductionHypothesis =>
      simp only [crossings, inductionHypothesis, List.countP_append]
      omega

theorem crossings_perm_right (perm : r.Perm r') : crossings height l r = crossings height l r' := by
  induction l with
  | nil => rfl
  | cons x l inductionHypothesis => rw [crossings, crossings, inductionHypothesis, perm.countP_eq]

theorem crossings_perm {l' : List Node} (perm : l.Perm l') (perm' : r.Perm r') :
    crossings height l r = crossings height l' r' := by
  rw [crossings_perm_right perm']
  induction perm with
  | nil => rfl
  | cons x _ inductionHypothesis => rw [crossings, crossings, inductionHypothesis]
  | swap x y l => exact Nat.add_left_comm _ _ _
  | trans _ _ first second => exact first.trans second

theorem crossings_le (l r : List Node) : crossings height l r ≤ l.length * r.length := by
  induction l with
  | nil => exact Nat.zero_le _
  | cons x l inductionHypothesis =>
      have here : r.countP (fun y => isAbove height x y) ≤ r.length := List.countP_le_length
      rw [crossings, List.length_cons, Nat.succ_mul]
      omega

/-- What is higher than all others is in the wrong place before them. -/
theorem crossings_singleton_left (above : ∀ y ∈ r, isAbove height x y = true) :
    crossings height [x] r = r.length := by
  simpa [crossings] using above

/-- And it is in the right place behind them. -/
theorem crossings_singleton_right (above : ∀ y ∈ r, isAbove height x y = true) :
    crossings height r [x] = 0 := by
  have below : ∀ y ∈ r, isAbove height y x = false := by
    intro y member
    obtain ⟨h, h', isHeight, isHeight', lower⟩ := isAbove_iff.mp (above y member)
    refine Bool.eq_false_iff.mpr fun isAbove => ?_
    obtain ⟨k, k', isHeight'', isHeight''', higher⟩ := isAbove_iff.mp isAbove
    cases isHeight.symm.trans isHeight'''
    cases isHeight'.symm.trans isHeight''
    omega
  clear above
  induction r with
  | nil => rfl
  | cons y r inductionHypothesis =>
      rw [List.forall_mem_cons] at below
      simp [crossings, below.1, inductionHypothesis below.2]

/-- Turning a union around makes it lean less to the left.  The new union is graded. -/
theorem potential_turn {cost : Nat} {u : Alternation Node} (graded : Graded y) :
    (sum x s (sum y t u)).potential height Graded cost <
      ((sum x (sum x s t) u).potential height Graded cost) := by
  have positive := s.parts_length_pos
  simp only [potential, parts, stale, graded, if_true, crossings_append_left,
    crossings_append_right, List.length_append, Nat.zero_add]
  rw [Nat.add_mul, Nat.mul_add, Nat.mul_add, Nat.mul_add]
  omega

/-- A part that is higher than all others moves behind them. -/
theorem potential_swap {cost : Nat} (above : ∀ z ∈ t.parts, isAbove height y z = true) :
    (sum x t (part y)).potential height Graded cost <
      (sum x (part y) t).potential height Graded cost := by
  simp only [potential, parts, stale, Nat.mul_zero, crossings_singleton_left above,
    crossings_singleton_right above, List.length_singleton]
  omega

/-- A part that moves behind a union which is not graded pays for all that gets worse. -/
theorem potential_swap_stale {cost : Nat} (enough : 2 * t.parts.length ≤ cost)
    (isStale : 0 < t.stale Graded) :
    (sum x t (part y)).potential height Graded cost <
      (sum x (part y) t).potential height Graded cost := by
  have few : crossings height t.parts [y] ≤ t.parts.length * 1 := crossings_le _ _
  have dear : cost * 1 ≤ cost * (1 * t.stale Graded) := by
    rw [Nat.one_mul]
    exact Nat.mul_le_mul_left cost isStale
  simp only [potential, parts, stale, Nat.mul_zero, List.length_singleton]
  omega

end Alternation

end Residual
