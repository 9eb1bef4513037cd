import Residual.Proofs.Arena.Closed
import Residual.Proofs.Arena.Definedness

/-!
# Orderly expressions

A union that begins with a union is turned around by the rules, and then the lower operand comes
first.  Where that happens again and again above a cycle, each round makes another expression of it.

It happens at most once if one of the operands has no operands, and the other one, unless it comes
second, is nothing that the rules make a union of: an iteration, or a sequence with a letter in it.
-/

set_option autoImplicit false

namespace Residual

namespace Expr

variable {A B : Type} {R : A → B → Prop} {e : Expr A} {e' : Expr B}

/-- An operator without operands, other than `ε`. -/
def IsLetter (e : Expr A) : Prop :=
  e.operands = [] ∧ e ≠ .empty

/-- No rule puts an operand in the place of the operator, unless the operand is as tight. -/
def IsTight : Expr A → Prop
  | .alt _ _ | .cat _ _ | .not _ => False
  | .rep _ count => count ≠ .finite 1
  | _ => True

theorem isTight_of_leaf (isLeaf : e.operands = []) : e.IsTight := by
  cases e with
  | any | empty | nil | char _ | range _ _ | token _ => trivial
  | _ => cases isLeaf

end Expr

namespace Arena

variable {arena before after : Arena} {root id x y left right : ExprId} {e : Expr ExprId}

/-- The expression has no operands. -/
def IsLeaf (arena : Arena) (id : ExprId) : Prop :=
  ∃ e, arena.Stands id e ∧ e.operands = []

/-- The expression is tight. -/
def IsTight (arena : Arena) (id : ExprId) : Prop :=
  ∃ e, arena.Stands id e ∧ e.IsTight

/-- A letter, or a sequence with a letter in it.  No rule makes anything but a sequence or a letter of
these, and none looks behind an unbound link. -/
inductive Solid (arena : Arena) : ExprId → Prop where
  | unbound {id : ExprId} : arena.slot? (arena.resolve id) = some (.link none) → Solid arena id
  | letter {id : ExprId} {e : Expr ExprId} : arena.Stands id e → e.IsLetter → Solid arena id
  | first {id first second : ExprId} : arena.Stands id (.cat first second) → Solid arena first →
      Solid arena id
  | second {id first second : ExprId} : arena.Stands id (.cat first second) → Solid arena second →
      Solid arena id

/-- No rule makes a union of the expression. -/
def Firm (arena : Arena) (id : ExprId) : Prop :=
  arena.IsTight id ∨ arena.Solid id

/-- Whatever can be reached is defined, and every union from which something other than a tree can be
reached begins with an operator that has no operands, or ends with one after something firm. -/
structure Orderly (arena : Arena) (root : ExprId) : Prop where
  defined : arena.Defined root
  heads : ∀ {id left right : ExprId}, arena.Reaches root id →
    arena.slot? id = some (.expr (.alt left right)) → ¬ arena.Closed id →
    arena.IsLeaf left ∨ arena.Firm left ∧ arena.IsLeaf right

theorem stands_congr (same : arena.resolve x = arena.resolve y) :
    arena.Stands x e ↔ arena.Stands y e := by
  unfold Stands
  rw [same]

theorem IsLeaf.of_resolve_eq (isLeaf : arena.IsLeaf x) (same : arena.resolve y = arena.resolve x) :
    arena.IsLeaf y := by
  obtain ⟨e, stands, isLeaf⟩ := isLeaf
  exact ⟨e, (stands_congr same).mpr stands, isLeaf⟩

theorem IsTight.of_resolve_eq (isTight : arena.IsTight x)
    (same : arena.resolve y = arena.resolve x) : arena.IsTight y := by
  obtain ⟨e, stands, isTight⟩ := isTight
  exact ⟨e, (stands_congr same).mpr stands, isTight⟩

theorem Solid.of_resolve_eq (solid : arena.Solid x) (same : arena.resolve y = arena.resolve x) :
    arena.Solid y := by
  cases solid with
  | unbound unbound => exact .unbound (same ▸ unbound)
  | letter stands isLetter => exact .letter ((stands_congr same).mpr stands) isLetter
  | first stands solid => exact .first ((stands_congr same).mpr stands) solid
  | second stands solid => exact .second ((stands_congr same).mpr stands) solid

theorem IsLeaf.closed (isLeaf : arena.IsLeaf id) (wellFormed : arena.WellFormed) :
    arena.Closed (arena.resolve id) := by
  obtain ⟨e, stands, isLeaf⟩ := isLeaf
  exact wellFormed.closed_of_expr stands (by simp [isLeaf])

theorem IsLeaf.firm (isLeaf : arena.IsLeaf id) : arena.Firm id := by
  obtain ⟨e, stands, isLeaf⟩ := isLeaf
  exact .inl ⟨e, stands, Expr.isTight_of_leaf isLeaf⟩

theorem IsLeaf.grows (isLeaf : before.IsLeaf id) (growing : before.Grows after)
    (wellFormed : before.WellFormed) (wellFormed' : after.WellFormed) : after.IsLeaf id := by
  obtain ⟨e, stands, isLeaf⟩ := isLeaf
  exact ⟨e, growing.stands wellFormed wellFormed' stands, isLeaf⟩

theorem IsTight.grows (isTight : before.IsTight id) (growing : before.Grows after)
    (wellFormed : before.WellFormed) (wellFormed' : after.WellFormed) : after.IsTight id := by
  obtain ⟨e, stands, isTight⟩ := isTight
  exact ⟨e, growing.stands wellFormed wellFormed' stands, isTight⟩

/-- A letter or a sequence is neither `ε` nor a union. -/
theorem Solid.isLetter_or_cat (solid : arena.Solid id) (stands : arena.Stands id e) :
    e.IsLetter ∨ ∃ first second, e = .cat first second := by
  cases solid with
  | unbound unbound => cases stands.symm.trans unbound
  | letter stands' isLetter => exact .inl (stands'.unique stands ▸ isLetter)
  | first stands' _ => exact .inr ⟨_, _, stands.unique stands'⟩
  | second stands' _ => exact .inr ⟨_, _, stands.unique stands'⟩

theorem Solid.not_empty (solid : arena.Solid id) : ¬ arena.Stands id .empty := by
  intro stands
  rcases solid.isLetter_or_cat stands with ⟨_, notEmpty⟩ | ⟨_, _, isCat⟩
  · exact notEmpty rfl
  · cases isCat

theorem Firm.not_alt (firm : arena.Firm id) : ¬ arena.Stands id (.alt left right) := by
  intro stands
  rcases firm with ⟨e, stands', isTight⟩ | solid
  · cases stands.unique stands'
    exact isTight
  · rcases solid.isLetter_or_cat stands with ⟨isLeaf, _⟩ | ⟨_, _, isCat⟩
    · cases isLeaf
    · cases isCat

theorem Orderly.of_reaches (orderly : arena.Orderly root) (wellFormed : arena.WellFormed)
    (reaches : arena.Reaches root x) : arena.Orderly x where
  defined id onward := orderly.defined id (wellFormed.reaches_trans reaches onward)
  heads onward := orderly.heads (wellFormed.reaches_trans reaches onward)

theorem WellFormed.reaches_resolve_operand (wellFormed : arena.WellFormed)
    (found : arena.slot? id = some (.expr e)) {o : ExprId} (member : o ∈ e.operands) :
    arena.Reaches id (arena.resolve o) := by
  refine wellFormed.reaches_operand ?_ (arena.reaches_self o)
  rwa [get_of_stands (stands_of_expr found)]

/-- A union of trees is one. -/
theorem WellFormed.closed_of_alt (wellFormed : arena.WellFormed)
    (found : arena.slot? id = some (.expr (.alt left right)))
    (closed : arena.Closed (arena.resolve left)) (closed' : arena.Closed (arena.resolve right)) :
    arena.Closed id := by
  refine wellFormed.closed_of_expr found fun o member => ?_
  have member : o = left ∨ o = right := by simpa [Expr.operands] using member
  rcases member with rfl | rfl
  · exact closed.of_resolve
  · exact closed'.of_resolve

/-! ## What lasts -/

namespace Extends

variable (extending : before.Extends after) (wellFormed : before.WellFormed)

include extending wellFormed

theorem stands_iff (inside : id.number < before.size) : after.Stands id e ↔ before.Stands id e := by
  unfold Stands
  rw [extending.slot?_resolve wellFormed inside]

theorem isLeaf_iff (inside : id.number < before.size) : after.IsLeaf id ↔ before.IsLeaf id :=
  exists_congr fun _ => and_congr_left fun _ => extending.stands_iff wellFormed inside

theorem isTight_iff (inside : id.number < before.size) : after.IsTight id ↔ before.IsTight id :=
  exists_congr fun _ => and_congr_left fun _ => extending.stands_iff wellFormed inside

theorem solid_iff (inside : id.number < before.size) : after.Solid id ↔ before.Solid id := by
  have operand_lt : ∀ {id first second : ExprId}, before.Stands id (.cat first second) →
      first.number < before.size ∧ second.number < before.size := fun stands =>
    ⟨wellFormed.operand_lt stands _ (by simp [Expr.operands]),
      wellFormed.operand_lt stands _ (by simp [Expr.operands])⟩
  constructor
  · intro solid
    induction solid with
    | unbound unbound => exact .unbound ((extending.slot?_resolve wellFormed inside).symm.trans unbound)
    | letter stands isLetter =>
        exact .letter ((extending.stands_iff wellFormed inside).mp stands) isLetter
    | first stands _ inductionHypothesis =>
        have stands := (extending.stands_iff wellFormed inside).mp stands
        exact .first stands (inductionHypothesis (operand_lt stands).1)
    | second stands _ inductionHypothesis =>
        have stands := (extending.stands_iff wellFormed inside).mp stands
        exact .second stands (inductionHypothesis (operand_lt stands).2)
  · intro solid
    induction solid with
    | unbound unbound => exact .unbound ((extending.slot?_resolve wellFormed inside).trans unbound)
    | letter stands isLetter =>
        exact .letter ((extending.stands_iff wellFormed inside).mpr stands) isLetter
    | first stands _ inductionHypothesis =>
        exact .first ((extending.stands_iff wellFormed inside).mpr stands)
          (inductionHypothesis (operand_lt stands).1)
    | second stands _ inductionHypothesis =>
        exact .second ((extending.stands_iff wellFormed inside).mpr stands)
          (inductionHypothesis (operand_lt stands).2)

theorem firm_iff (inside : id.number < before.size) : after.Firm id ↔ before.Firm id :=
  or_congr (extending.isTight_iff wellFormed inside) (extending.solid_iff wellFormed inside)

/-- Nothing changes below what was there before. -/
theorem orderly_iff (wellFormed' : after.WellFormed) (inside : root.number < before.size) :
    after.Orderly root ↔ before.Orderly root := by
  have reaches_iff : ∀ {id}, after.Reaches root id ↔ before.Reaches root id :=
    extending.reaches_iff wellFormed inside
  have heads_iff : ∀ {id left right}, before.slot? id = some (.expr (.alt left right)) →
      (after.IsLeaf left ∨ after.Firm left ∧ after.IsLeaf right ↔
        before.IsLeaf left ∨ before.Firm left ∧ before.IsLeaf right) := by
    intro id left right found
    have left_lt := wellFormed.operand_lt found left (by simp [Expr.operands])
    have right_lt := wellFormed.operand_lt found right (by simp [Expr.operands])
    rw [extending.isLeaf_iff wellFormed left_lt, extending.firm_iff wellFormed left_lt,
      extending.isLeaf_iff wellFormed right_lt]
  constructor
  · intro orderly
    refine ⟨(extending.defined_iff wellFormed inside).mp orderly.defined, ?_⟩
    intro id left right reaches found isOpen
    have isInside := wellFormed.reaches_lt inside reaches
    have stillOpen : ¬ after.Closed id := fun closed =>
      isOpen (closed.of_extends extending wellFormed isInside)
    exact (heads_iff found).mp
      (orderly.heads (reaches_iff.mpr reaches) (extending.grows.expr found) stillOpen)
  · intro orderly
    refine ⟨(extending.defined_iff wellFormed inside).mpr orderly.defined, ?_⟩
    intro id left right reaches found isOpen
    have reaches := reaches_iff.mp reaches
    have found := (extending _ (wellFormed.reaches_lt inside reaches)).symm.trans found
    have wasOpen : ¬ before.Closed id := fun closed =>
      isOpen (closed.grows extending.grows wellFormed')
    exact (heads_iff found).mpr (orderly.heads reaches found wasOpen)

end Extends

end Arena

end Residual
