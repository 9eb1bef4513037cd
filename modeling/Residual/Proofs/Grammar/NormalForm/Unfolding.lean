import Residual.Proofs.Grammar.NormalForm.Steps
import Residual.Proofs.Grammar.Transformation.Unfolding

/-!
# The simplified forms of trees are trees

A step of the simplification asks for the simplified operands of an expression, which are lighter
than it, and answers with a part of what it has been told or with a new operator above such parts.
-/

set_option autoImplicit false

namespace Residual.Grammar

open Memo

variable {placeholders : Set ExprId} {state between : Grammar}
  {recur : ExprId → Eval Grammar ExprId} {id x y left right operand simple : ExprId}
  {e : Expr ExprId} {tree : Tree}

@[simp]
theorem builds_shape (next : Option (Expr ExprId) → Eval Grammar ExprId) :
    Builds Tables.simplified placeholders state (shape? id >>= next) ↔
      Builds Tables.simplified placeholders state (next (state.arena.get? id)) := by
  unfold Builds shape?
  simp only [ensures_bind, ensures_get, ensures_pure]

@[simp]
theorem builds_unchanged (next : Bool → Eval Grammar ExprId) :
    Builds Tables.simplified placeholders state (unchanged x y >>= next) ↔
      Builds Tables.simplified placeholders state (next (state.arena.resolve x == y)) := by
  unfold Builds unchanged
  simp only [ensures_bind, ensures_get, ensures_pure]
  rfl

section Steps

variable (evaluating : Evaluating Tables.simplified placeholders state)

include evaluating

theorem Evaluating.ensures_height (unfoldable : state.arena.Unfoldable placeholders id) :
    Ensures (computeHeight id) state fun _ after =>
      Progresses Tables.simplified placeholders state after ∧ after.arena = state.arena := by
  obtain ⟨tree, unfolds⟩ := unfoldable
  exact evaluating.ensures_aside (evaluating.unfolded.yields_height unfolds) fun _ _ => rfl

theorem Evaluating.ensures_equal (unfoldable : state.arena.Unfoldable placeholders x)
    (unfoldable' : state.arena.Unfoldable placeholders y) :
    Ensures (computeEqual x y) state fun _ after =>
      Progresses Tables.simplified placeholders state after ∧ after.arena = state.arena := by
  obtain ⟨tree, unfolds⟩ := unfoldable
  obtain ⟨tree', unfolds'⟩ := unfoldable'
  exact evaluating.ensures_aside (evaluating.unfolded.yields_equal unfolds unfolds') fun _ _ => rfl

theorem builds_rebuild (unfoldable : state.arena.Unfoldable placeholders id)
    (operands : ∀ o ∈ e.operands, state.arena.Unfoldable placeholders o) :
    Builds Tables.simplified placeholders state (rebuild id operand simple e) := by
  unfold rebuild
  rw [builds_unchanged]
  split
  · exact evaluating.builds_pure unfoldable
  · exact evaluating.builds_push operands

theorem builds_uniteOrdered (unfoldable : state.arena.Unfoldable placeholders id)
    (isLeft : state.arena.Unfoldable placeholders x)
    (isRight : state.arena.Unfoldable placeholders y) :
    Builds Tables.simplified placeholders state (uniteOrdered id left right x y) := by
  unfold uniteOrdered
  refine .bind (evaluating.ensures_equal isLeft isRight) ?_
  intro isEqual between progresses sameArena
  rw [← sameArena] at unfoldable isLeft isRight
  have evaluating := progresses.evaluating
  cases isEqual with
  | true => exact evaluating.builds_pure isLeft
  | false =>
      simp only [Bool.false_eq_true, if_false, builds_shape]
      split
      · exact evaluating.builds_pure isLeft
      · rw [builds_shape]
        split
        · exact evaluating.builds_pure isRight
        · simp only [builds_unchanged]
          split
          · exact evaluating.builds_pure unfoldable
          · exact evaluating.builds_above rfl isLeft isRight

theorem builds_unite (unfoldable : state.arena.Unfoldable placeholders id)
    (isLeft : state.arena.Unfoldable placeholders x)
    (isRight : state.arena.Unfoldable placeholders y) :
    Builds Tables.simplified placeholders state (unite id left right x y) := by
  unfold unite
  refine .bind (evaluating.ensures_height isLeft) ?_
  intro height between progresses sameArena
  rw [← sameArena] at unfoldable isLeft isRight
  refine .bind (progresses.evaluating.ensures_height isRight) ?_
  intro height' between' progresses' sameArena'
  rw [← sameArena'] at unfoldable isLeft isRight
  by_cases order : height > height'
  · simp only [order, if_true]
    exact builds_uniteOrdered progresses'.evaluating unfoldable isRight isLeft
  · simp only [order, if_false]
    exact builds_uniteOrdered progresses'.evaluating unfoldable isLeft isRight

theorem builds_simplifyAlt (unfoldable : state.arena.Unfoldable placeholders id)
    (isLeft : state.arena.Unfoldable placeholders x)
    (isRight : state.arena.Unfoldable placeholders y) :
    Builds Tables.simplified placeholders state (simplifyAlt id left right x y) := by
  have wellFormed := evaluating.unfolded.wellFormed
  rw [simplifyAlt_eq]
  unfold Builds
  unfold shape?
  simp only [ensures_bind, ensures_get, ensures_pure]
  split
  · rename_i inner rest known
    have isInner := isLeft.operand_of_known wellFormed known (o := inner) (by simp [Expr.operands])
    have isRest := isLeft.operand_of_known wellFormed known (o := rest) (by simp [Expr.operands])
    simp only [ensures_bind, ensures_get, ensures_pure]
    refine Ensures.mono (evaluating.builds_above (e := .alt rest y) rfl isRest isRight) ?_
    rintro tail between ⟨progresses, isTail⟩
    exact (builds_unite progresses.evaluating (unfoldable.fills progresses.filling)
      ((isInner.resolve wellFormed).fills progresses.filling) isTail).of_progresses progresses
  · rw [ensures_bind, ensures_pure]
    exact builds_unite evaluating unfoldable isLeft isRight

theorem builds_simplifyCat (unfoldable : state.arena.Unfoldable placeholders id)
    (isFirst : state.arena.Unfoldable placeholders x)
    (isSecond : state.arena.Unfoldable placeholders y) :
    Builds Tables.simplified placeholders state (simplifyCat id left right x y) := by
  unfold simplifyCat
  simp only [builds_shape]
  split
  · exact evaluating.builds_pure isFirst
  · exact evaluating.builds_pure isSecond
  · exact evaluating.builds_pure isSecond
  · exact evaluating.builds_pure isFirst
  · simp only [builds_unchanged]
    split
    · exact evaluating.builds_pure unfoldable
    · exact evaluating.builds_above rfl isFirst isSecond

variable (unfolds : state.arena.Unfolds placeholders id tree)
  (below : BuildsBelow Tables.simplified (fun id => id) placeholders tree state recur)

include unfolds below

theorem builds_unary {next : ExprId → Eval Grammar ExprId}
    (member : operand ∈ (state.arena.get id).operands)
    (continues : ∀ {between : Grammar} {simple : ExprId},
      Evaluating Tables.simplified placeholders between →
      between.arena.Unfoldable placeholders id → between.arena.Unfoldable placeholders simple →
      Builds Tables.simplified placeholders between (next simple)) :
    Builds Tables.simplified placeholders state (askOperand recur operand >>= next) := by
  have wellFormed := evaluating.unfolded.wellFormed
  have unfoldable : state.arena.Unfoldable placeholders id := ⟨tree, unfolds⟩
  refine .bind (below.operand (fun id => id) (fun _ => rfl) evaluating.progresses_refl wellFormed
    unfolds member) ?_
  intro simple between progresses isSimple
  exact continues progresses.evaluating (unfoldable.fills progresses.filling) isSimple

theorem builds_binary {next : ExprId → ExprId → Eval Grammar ExprId}
    (member : left ∈ (state.arena.get id).operands)
    (member' : right ∈ (state.arena.get id).operands)
    (continues : ∀ {between : Grammar} {simple simple' : ExprId},
      Evaluating Tables.simplified placeholders between →
      between.arena.Unfoldable placeholders id → between.arena.Unfoldable placeholders simple →
      between.arena.Unfoldable placeholders simple' →
      Builds Tables.simplified placeholders between (next simple simple')) :
    Builds Tables.simplified placeholders state (do
      let simple ← askOperand recur left
      let simple' ← askOperand recur right
      next simple simple') := by
  have wellFormed := evaluating.unfolded.wellFormed
  have unfoldable : state.arena.Unfoldable placeholders id := ⟨tree, unfolds⟩
  refine .bind (below.operand (fun id => id) (fun _ => rfl) evaluating.progresses_refl wellFormed
    unfolds member) ?_
  intro simple between progresses isSimple
  refine .bind (below.operand (fun id => id) (fun _ => rfl) progresses wellFormed unfolds
    member') ?_
  intro simple' between' progresses' isSimple'
  exact continues progresses'.evaluating
    ((unfoldable.fills progresses.filling).fills progresses'.filling)
    (isSimple.fills progresses'.filling) isSimple'

/-- A simplification step makes a tree of the trees that it is told. -/
theorem builds_simplifyStep :
    Builds Tables.simplified placeholders state (simplifyStep recur id) := by
  have wellFormed := evaluating.unfolded.wellFormed
  unfold simplifyStep
  rw [builds_get, show state.get id = state.arena.get id from rfl]
  cases isExpr : state.arena.get id with
  | alt left right =>
      exact builds_binary evaluating unfolds below (by simp [isExpr, Expr.operands])
        (by simp [isExpr, Expr.operands]) fun evaluating unfoldable isLeft isRight =>
          builds_simplifyAlt evaluating unfoldable isLeft isRight
  | cat first second =>
      exact builds_binary evaluating unfolds below (by simp [isExpr, Expr.operands])
        (by simp [isExpr, Expr.operands]) fun evaluating unfoldable isFirst isSecond =>
          builds_simplifyCat evaluating unfoldable isFirst isSecond
  | not lang =>
      refine builds_unary evaluating unfolds below (by simp [isExpr, Expr.operands]) ?_
      intro between simple evaluating unfoldable isSimple
      have wellFormed := evaluating.unfolded.wellFormed
      rw [builds_shape]
      split
      · rename_i inner known
        rw [builds_get]
        exact evaluating.builds_pure ((isSimple.operand_of_known wellFormed known
          (by simp [Expr.operands])).resolve wellFormed)
      · exact builds_rebuild evaluating unfoldable (by simpa [Expr.operands] using isSimple)
  | opt lang =>
      refine builds_unary evaluating unfolds below (by simp [isExpr, Expr.operands]) ?_
      intro between simple evaluating unfoldable isSimple
      rw [builds_shape]
      split
      · exact evaluating.builds_empty
      · exact evaluating.builds_empty
      · exact builds_rebuild evaluating unfoldable (by simpa [Expr.operands] using isSimple)
  | plus lang =>
      refine builds_unary evaluating unfolds below (by simp [isExpr, Expr.operands]) ?_
      intro between simple evaluating unfoldable isSimple
      rw [builds_shape]
      split
      · exact evaluating.builds_pure isSimple
      · exact evaluating.builds_pure isSimple
      · exact builds_rebuild evaluating unfoldable (by simpa [Expr.operands] using isSimple)
  | star lang =>
      refine builds_unary evaluating unfolds below (by simp [isExpr, Expr.operands]) ?_
      intro between simple evaluating unfoldable isSimple
      rw [builds_shape]
      split
      · exact evaluating.builds_empty
      · exact evaluating.builds_empty
      · exact evaluating.builds_pure isSimple
      · exact builds_rebuild evaluating unfoldable (by simpa [Expr.operands] using isSimple)
  | range low high =>
      dsimp only
      split
      · exact evaluating.builds_push nofun
      · exact evaluating.builds_pure ⟨tree, unfolds⟩
  | rep lang count =>
      rcases count with (_ | _ | times) | _
      case finite.zero => exact evaluating.builds_empty
      case finite.succ.zero =>
        exact below.operand (o := lang) (fun id => id) (fun _ => rfl) evaluating.progresses_refl
          wellFormed unfolds (by simp [isExpr, Expr.operands])
      case infinite =>
        exact builds_unary evaluating unfolds below (by simp [isExpr, Expr.operands])
          fun evaluating _ isSimple =>
            evaluating.builds_push (by simpa [Expr.operands] using isSimple)
      case finite.succ.succ =>
        exact builds_unary evaluating unfolds below (by simp [isExpr, Expr.operands])
          fun evaluating unfoldable isSimple =>
            builds_rebuild evaluating unfoldable (by simpa [Expr.operands] using isSimple)
  | any | char _ | empty | nil | token _ => exact evaluating.builds_pure ⟨tree, unfolds⟩

end Steps

theorem simplification_lightens : Lightens Tables.simplified
    (fun f tables => { tables with simplified := f tables.simplified }) simplifyStep
    fun id => id where
  isField := ⟨fun _ _ => rfl, fun _ _ _ => rfl, fun _ => rfl⟩
  unfolded _ unfolded := { unfolded with wellFormed := unfolded.wellFormed }
  step_builds evaluating unfolds below := builds_simplifyStep evaluating unfolds below

theorem keepsUnfolded_simplified (kept : SimplifiedKept state)
    (inside : id.number < state.arena.size) : state.KeepsUnfolded (computeSimplified id) := by
  refine .of_imp fun unfolded => ?_
  unfold computeSimplified
  rw [ensures_bind, ensures_get]
  exact ensures_unfolded simplification_lightens unfolded kept.idle kept.singlePass kept.settled_lt
    (unfolded.wellFormed.resolve_lt inside) _

end Residual.Grammar
