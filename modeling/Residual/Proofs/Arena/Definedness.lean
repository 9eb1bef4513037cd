import Residual.Proofs.Arena.Strata

/-!
# Defined expressions in growing arenas

Below a defined expression nothing changes any more.  Conversely, an expression that will not reach
an improper repetition, whatever its arena grows to, reaches no unbound link: it could be bound to
such a repetition.
-/

set_option autoImplicit false

namespace Residual.Arena

variable {arena before after : Arena} {root id x y : ExprId} {kind : Expr Unit → Prop}

theorem defined_congr (same : arena.resolve x = arena.resolve y) :
    arena.Defined x ↔ arena.Defined y := by
  unfold Defined Reaches
  rw [same]

theorem not_defined_of_unbound (unbound : arena.slot? id = some (.link none)) :
    ¬ arena.Defined id := by
  intro defined
  have reaches := arena.reaches_self id
  rw [resolve_of_final (by simp [unbound])] at reaches
  exact absurd (isUnbound_iff.mpr unbound) (by simp [defined id reaches])

theorem WellFormed.defined_operand (wellFormed : arena.WellFormed) (defined : arena.Defined x)
    (member : y ∈ (arena.get x).operands) : arena.Defined y :=
  fun id reaches => defined id (wellFormed.reaches_operand member reaches)

/-- An unbound link counts as `∅`. -/
theorem WellFormed.throughout_of_unbound (wellFormed : arena.WellFormed) (onNil : kind .nil)
    (unbound : arena.slot? id = some (.link none)) : arena.Throughout id kind := by
  have isFinal : arena.resolve id = id := resolve_of_final (by simp [unbound])
  have isNil : arena.get id = .nil := by
    rw [Arena.get, isFinal, unbound]
  refine wellFormed.throughout_iff.mpr ?_
  rw [isNil]
  exact ⟨onNil, nofun⟩

namespace Extends

variable (extending : before.Extends after) (wellFormed : before.WellFormed)

include extending wellFormed

theorem defined_iff (inside : root.number < before.size) :
    after.Defined root ↔ before.Defined root := by
  refine extending.forall_reaches_iff wellFormed inside fun n inside => ?_
  unfold isUnbound
  rw [extending n inside]

/-- What is defined was defined before, also if it was no expression yet. -/
theorem defined (wellFormed' : after.WellFormed) (defined : after.Defined root) :
    before.Defined root := by
  intro id reaches
  by_contra isUnbound
  have unbound := isUnbound_iff.mp ((Bool.not_eq_false _).mp isUnbound)
  have unbound' := (extending id (lt_size_of_slot? unbound)).trans unbound
  refine not_defined_of_unbound unbound' fun id reaches' => defined id ?_
  have reaches := extending.grows.reaches wellFormed wellFormed' reaches
  exact wellFormed'.reaches_trans reaches (wellFormed'.reaches_resolve.mpr reaches')

end Extends

/-- What a defined expression reaches is an expression. -/
theorem WellFormed.exists_expr_of_reaches (wellFormed : arena.WellFormed)
    (inside : root.number < arena.size) (defined : arena.Defined root)
    (reaches : arena.Reaches root id) : ∃ e, arena.slot? id = some (.expr e) := by
  obtain ⟨slot, found⟩ := exists_slot? (wellFormed.reaches_lt inside reaches)
  match slot, found with
  | .expr e, found => exact ⟨e, found⟩
  | .link (some target), found =>
      have final := wellFormed.resolve_final id
      rw [wellFormed.resolve_of_reaches reaches] at final
      exact absurd found (final target)
  | .link none, found =>
      exact absurd (isUnbound_iff.mpr found) (by simp [defined id reaches])

section Defined

variable (growing : before.Grows after) (wellFormed : before.WellFormed)
  (wellFormed' : after.WellFormed) (inside : root.number < before.size)
  (defined : before.Defined root)

include growing wellFormed wellFormed' inside defined

theorem Grows.reaches_of_defined (reaches : after.Reaches root id) : before.Reaches root id := by
  induction reaches with
  | refl =>
      have stands := wellFormed.exists_expr_of_reaches inside defined (before.reaches_self root)
      obtain ⟨e, stands⟩ := stands
      rw [growing.resolve_of_stands wellFormed wellFormed' stands]
      exact before.reaches_self root
  | @tail x y _ child inductionHypothesis =>
      obtain ⟨e, found⟩ := wellFormed.exists_expr_of_reaches inside defined inductionHypothesis
      obtain ⟨o, member, rfl⟩ := mem_operands_iff.mp child
      rw [get_of_stands (stands_of_expr (growing.expr found))] at member
      have reaches : before.Reaches root (before.resolve o) :=
        inductionHypothesis.tail (mem_operands_iff.mpr
          ⟨o, by rwa [get_of_stands (stands_of_expr found)], rfl⟩)
      obtain ⟨_, stands⟩ := wellFormed.exists_expr_of_reaches inside defined reaches
      rwa [growing.resolve_of_stands wellFormed wellFormed' stands]

/-- The operators below a defined expression stay as they are. -/
theorem Grows.throughout_of_defined (throughout : before.Throughout root kind) :
    after.Throughout root kind := by
  intro id reaches
  have reaches := growing.reaches_of_defined wellFormed wellFormed' inside defined reaches
  obtain ⟨e, found⟩ := wellFormed.exists_expr_of_reaches inside defined reaches
  have here := throughout id reaches
  rw [get_of_stands (stands_of_expr found)] at here
  rwa [get_of_stands (stands_of_expr (growing.expr found))]

end Defined

/-- A link can be bound to an improper repetition. -/
theorem WellFormed.exists_uncounted (wellFormed : arena.WellFormed)
    (unbound : arena.slot? id = some (.link none)) : ∃ later : Arena, arena.Grows later ∧
      later.WellFormed ∧ ¬ IsCounted (later.get id).shape := by
  let repetition : Expr ExprId := .rep .nil .infinite
  have extending : arena.Extends (arena.push repetition).2 := extends_push arena repetition
  have wellFormed' : (arena.push repetition).2.WellFormed := by
    refine wellFormed.push fun o member => ?_
    rw [List.mem_singleton.mp member]
    exact lt_size_of_slot? wellFormed.nil
  have pushed : (arena.push repetition).2.slot? (arena.push repetition).1 =
      some (.expr repetition) := slot?_push wellFormed repetition
  have unbound' := (extending id (lt_size_of_slot? unbound)).trans unbound
  have growing := grows_bind (arena.push repetition).1 unbound'
  have wellFormed'' := wellFormed'.bind _ unbound' (lt_size_of_slot? pushed)
  refine ⟨_, extending.grows.trans growing, wellFormed'', ?_⟩
  have sameResolve := wellFormed'.resolve_bind_link _ unbound' (lt_size_of_slot? pushed)
  have sameGet := wellFormed''.get_resolve id
  rw [sameResolve, wellFormed''.get_resolve,
    get_of_stands (stands_of_expr (growing.expr pushed))] at sameGet
  rw [← sameGet]
  exact fun counted => counted.2 rfl

/-- What never reaches an improper repetition reaches no link that could be bound to one. -/
theorem WellFormed.defined_of_counted (wellFormed : arena.WellFormed)
    (counted : ∀ later, arena.Grows later → later.WellFormed → later.Counted root) :
    arena.Defined root := by
  intro id reaches
  by_contra isUnbound
  have unbound := isUnbound_iff.mp ((Bool.not_eq_false _).mp isUnbound)
  obtain ⟨later, growing, wellFormed', uncounted⟩ := wellFormed.exists_uncounted unbound
  refine uncounted ?_
  have here := counted later growing wellFormed' _ (growing.reaches wellFormed wellFormed' reaches)
  rwa [wellFormed'.get_resolve] at here

end Residual.Arena
