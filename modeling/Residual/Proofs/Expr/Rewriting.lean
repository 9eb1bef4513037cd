import Mathlib.Algebra.Order.Group.Nat
import Residual.Proofs.Expr.Alternation

/-!
# Rewriting in rounds

An expression is rewritten in rounds: its operands first, and then one rule at its root.  Most rules
take something away.  Those for unions rearrange them, and compare heights for it that may be known
for some nodes only and need not be right.

The laws are those that are kept whatever is known of the heights.
-/

set_option autoImplicit false

namespace Residual

/-- Nodes that are seen as expressions with nodes as operands, and what becomes of each of them in
one round.  Nothing is known about nodes that are not active. -/
structure Rewriting (Node : Type) where
  view : Node → Expr Node
  mass : Node → Nat
  mass_eq : ∀ x, mass x = ((view x).map mass).mass
  height : Node → Option Nat
  next : Node → Node
  Active : Node → Prop

namespace Rewriting

variable {Node : Type} (rewriting : Rewriting Node) {x y left right l r l' r' : Node}

/-- The node is no union. -/
def Single (x : Node) : Prop :=
  ∀ left right, rewriting.view x ≠ .alt left right

/-- If the height of the node is known, then it is greater than those of its operands. -/
def Graded (x : Node) : Prop :=
  ∀ h, rewriting.height x = some h → ∀ o ∈ (rewriting.view x).operands,
    ∃ h', rewriting.height o = some h' ∧ h' < h

/-- A union on the left is turned around. -/
inductive Turns : Node → Node → Node → Node → Prop where
  | flat {l r : Node} : rewriting.Single l → Turns l r l r
  | turned {l r inner rest tail : Node} : rewriting.view l = .alt inner rest →
      rewriting.view tail = .alt rest r → rewriting.Graded tail → Turns l r inner tail

/-- The higher one of two operands comes last. -/
inductive Orders : Node → Node → Node → Node → Prop where
  | kept {l r : Node} {h h' : Nat} : rewriting.height l = some h → rewriting.height r = some h' →
      h ≤ h' → Orders l r l r
  | swapped {l r : Node} {h h' : Nat} : rewriting.height l = some h →
      rewriting.height r = some h' → h' < h → Orders l r r l

/-- What may become of a node in one round. -/
inductive Round (x : Node) : Prop where
  /-- The node is replaced by something else. -/
  | drop : rewriting.mass (rewriting.next x) < rewriting.mass x → Round x
  /-- A rule takes something away. -/
  | shrink : (∀ o ∈ (rewriting.view x).operands, rewriting.Active o) →
      rewriting.mass (rewriting.next x) <
        ((rewriting.view x).map fun o => rewriting.mass (rewriting.next o)).mass → Round x
  /-- Only the operands are rewritten. -/
  | rebuild : rewriting.Single x → (∀ o ∈ (rewriting.view x).operands, rewriting.Active o) →
      rewriting.view (rewriting.next x) = (rewriting.view x).map rewriting.next →
      ((∀ o ∈ (rewriting.view x).operands, rewriting.next o = o) → rewriting.next x = x) → Round x
  /-- A union is rearranged. -/
  | unite {left right l r l' r' : Node} : rewriting.view x = .alt left right →
      rewriting.Active left → rewriting.Active right →
      rewriting.Turns (rewriting.next left) (rewriting.next right) l r →
      rewriting.Orders l r l' r' → rewriting.view (rewriting.next x) = .alt l' r' →
      rewriting.next x = x ∨ rewriting.Graded (rewriting.next x) →
      (l' = left → r' = right → rewriting.next x = x) → Round x

/-- In every round of an active node one of these things happens. -/
def Lawful : Prop :=
  ∀ x, rewriting.Active x → rewriting.Round x

/-- The node does not change in a round. -/
def Fixed (x : Node) : Prop :=
  rewriting.next x = x

/-- The node loses nothing in a round. -/
def Steady (x : Node) : Prop :=
  rewriting.mass (rewriting.next x) = rewriting.mass x

variable {rewriting}

variable (rewriting) in
theorem mass_pos (x : Node) : 0 < rewriting.mass x := by
  rw [rewriting.mass_eq]
  exact Expr.mass_pos _

variable (rewriting) in
theorem mass_operand {o : Node} (member : o ∈ (rewriting.view x).operands) :
    rewriting.mass o < rewriting.mass x := by
  rw [rewriting.mass_eq x]
  exact Expr.lt_mass_map member

theorem mass_alt (isAlt : rewriting.view x = .alt left right) :
    rewriting.mass x = rewriting.mass left + rewriting.mass right + 1 := by
  rw [rewriting.mass_eq, isAlt]
  rfl

theorem mass_left (isAlt : rewriting.view x = .alt left right) :
    rewriting.mass left < rewriting.mass x := by
  have := mass_alt isAlt
  omega

theorem mass_right (isAlt : rewriting.view x = .alt left right) :
    rewriting.mass right < rewriting.mass x := by
  have := mass_alt isAlt
  omega

/-- Rewriting the operands does not make a union of a node. -/
theorem Single.of_map {f : Node → Node} (single : rewriting.Single x)
    (isView : rewriting.view y = (rewriting.view x).map f) : rewriting.Single y := by
  intro left right isAlt
  rw [isView] at isAlt
  cases isExpr : rewriting.view x with
  | alt left right => exact single left right isExpr
  | _ =>
      rw [isExpr] at isAlt
      cases isAlt

theorem Turns.mass_eq (turns : rewriting.Turns left right l r) :
    rewriting.mass l + rewriting.mass r = rewriting.mass left + rewriting.mass right := by
  cases turns with
  | flat _ => rfl
  | turned isAlt isTail _ =>
      rw [mass_alt isAlt, mass_alt isTail]
      omega

theorem Orders.mass_eq (orders : rewriting.Orders l r l' r') :
    rewriting.mass l' + rewriting.mass r' = rewriting.mass l + rewriting.mass r := by
  cases orders with
  | kept _ _ _ => rfl
  | swapped _ _ _ => exact Nat.add_comm _ _

section Lawful

variable (lawful : rewriting.Lawful) (active : rewriting.Active x)

include lawful active

/-- No round adds anything. -/
theorem mass_next_le : rewriting.mass (rewriting.next x) ≤ rewriting.mass x := by
  induction bound : rewriting.mass x using Nat.strong_induction_on generalizing x with
  | _ n inductionHypothesis =>
      subst bound
      have lighter : (∀ o ∈ (rewriting.view x).operands, rewriting.Active o) →
          ((rewriting.view x).map fun o => rewriting.mass (rewriting.next o)).mass ≤
            rewriting.mass x := by
        intro operands
        rw [rewriting.mass_eq x]
        exact Expr.mass_map_le fun o member =>
          inductionHypothesis _ (rewriting.mass_operand member) (operands o member) rfl
      cases lawful x active with
      | drop less => exact less.le
      | shrink operands less => exact less.le.trans (lighter operands)
      | rebuild _ operands isView _ =>
          rw [rewriting.mass_eq (rewriting.next x), isView, Expr.map_map]
          exact lighter operands
      | unite isAlt activeLeft activeRight turns orders isAlt' _ _ =>
          have first := inductionHypothesis _ (mass_left isAlt) activeLeft rfl
          have second := inductionHypothesis _ (mass_right isAlt) activeRight rfl
          have same := turns.mass_eq
          have same' := orders.mass_eq
          rw [mass_alt isAlt, mass_alt isAlt']
          omega

/-- In a round that takes nothing away, nothing is taken away from the operands. -/
theorem steady_cases (steady : rewriting.Steady x) :
    (rewriting.Single x ∧
      (∀ o ∈ (rewriting.view x).operands, rewriting.Active o ∧ rewriting.Steady o) ∧
      rewriting.view (rewriting.next x) = (rewriting.view x).map rewriting.next ∧
      ((∀ o ∈ (rewriting.view x).operands, rewriting.Fixed o) → rewriting.Fixed x)) ∨
    ∃ left right l r l' r', rewriting.view x = .alt left right ∧
      (rewriting.Active left ∧ rewriting.Steady left) ∧
      (rewriting.Active right ∧ rewriting.Steady right) ∧
      rewriting.Turns (rewriting.next left) (rewriting.next right) l r ∧
      rewriting.Orders l r l' r' ∧ rewriting.view (rewriting.next x) = .alt l' r' ∧
      (rewriting.Fixed x ∨ rewriting.Graded (rewriting.next x)) ∧
      (l' = left → r' = right → rewriting.Fixed x) := by
  unfold Steady at steady
  have each : (∀ o ∈ (rewriting.view x).operands, rewriting.Active o) →
      ∀ o ∈ (rewriting.view x).operands,
        rewriting.mass (rewriting.next o) ≤ rewriting.mass o :=
    fun operands o member => mass_next_le lawful (operands o member)
  cases lawful x active with
  | drop less => omega
  | shrink operands less =>
      have lighter := Expr.mass_map_le (each operands)
      rw [← rewriting.mass_eq x] at lighter
      omega
  | rebuild single operands isView fixed =>
      refine .inl ⟨single, fun o member => ⟨operands o member, ?_⟩, isView, fixed⟩
      refine Expr.eq_of_mass_map_le (each operands) ?_ o member
      rw [← rewriting.mass_eq x, ← steady, rewriting.mass_eq (rewriting.next x), isView,
        Expr.map_map]
  | unite isAlt activeLeft activeRight turns orders isAlt' graded fixed =>
      have first := mass_next_le lawful activeLeft
      have second := mass_next_le lawful activeRight
      have same := turns.mass_eq
      have same' := orders.mass_eq
      rw [mass_alt isAlt, mass_alt isAlt'] at steady
      refine .inr ⟨_, _, _, _, _, _, isAlt, ⟨activeLeft, ?_⟩, ⟨activeRight, ?_⟩, turns, orders,
        isAlt', graded, fixed⟩
      · unfold Steady
        omega
      · unfold Steady
        omega

/-- A union that was rearranged has no union on the left, unless it is lower than the right one. -/
theorem single_or_lower (steady : rewriting.Steady x)
    (isAlt : rewriting.view (rewriting.next x) = .alt l r) : rewriting.Single l ∨
      ∃ h h', rewriting.height l = some h ∧ rewriting.height r = some h' ∧ h < h' := by
  induction bound : rewriting.mass x using Nat.strong_induction_on generalizing x l r with
  | _ n inductionHypothesis =>
      subst bound
      rcases steady_cases lawful active steady with
        ⟨single, _, isView, _⟩ | ⟨left, right, l₁, r₁, l₂, r₂, isAlt₀, activeLeft, _, turns,
          orders, isAlt', _, _⟩
      · exact absurd isAlt (single.of_map isView l r)
      · cases isAlt.symm.trans isAlt'
        cases orders with
        | swapped isHeight isHeight' lower => exact .inr ⟨_, _, isHeight', isHeight, lower⟩
        | kept isHeight isHeight' lower =>
            cases turns with
            | flat single => exact .inl single
            | turned isAlt isTail graded =>
                refine (inductionHypothesis _ (mass_left isAlt₀) activeLeft.1 activeLeft.2 isAlt
                  rfl).imp_right ?_
                rintro ⟨h, h', isHeight'', isRest, lower'⟩
                obtain ⟨k, isRest', lower''⟩ := graded _ isHeight' _
                  (by rw [isTail]; exact List.mem_cons_self)
                cases isRest.symm.trans isRest'
                exact ⟨_, _, isHeight'', isHeight', lower'.trans lower''⟩

end Lawful

end Rewriting

end Residual
