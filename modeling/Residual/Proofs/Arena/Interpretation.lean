import Mathlib.Order.FixedPoints
import Mathlib.Order.ConditionallyCompleteLattice.Basic
import Mathlib.Order.CompletePartialOrder
import Residual.Proofs.Arena.Growth

/-!
# Least solutions over arenas

An interpretation gives every operator a monotone meaning in a complete lattice.  Then the
expressions of an arena are a system of equations, one for each slot, and the least solution of
that system gives a meaning to every number.  Links are equations too; an unbound link is least.

Bisimilar expressions have the same meaning, and meanings are not changed by new slots.
`least_le_of_tied` bounds the meanings of links by way of a solution in which they are cut.
-/

set_option autoImplicit false

namespace Residual

/-- A monotone meaning of operators. -/
structure Interpretation (Meaning : Type) [CompleteLattice Meaning] where
  apply : Expr Meaning → Meaning
  monotone : ∀ {e e' : Expr Meaning}, e.shape = e'.shape →
    List.Forall₂ (· ≤ ·) e.operands e'.operands → apply e ≤ apply e'

namespace Interpretation

variable {Meaning : Type} [CompleteLattice Meaning] (interpretation : Interpretation Meaning)
  {arena before after : Arena} {values values' : ExprId → Meaning} {id target : ExprId}
  {e e' : Expr ExprId}

theorem apply_map_mono (below : ∀ operand ∈ e.operands, values operand ≤ values' operand) :
    interpretation.apply (e.map values) ≤ interpretation.apply (e.map values') := by
  refine interpretation.monotone (by simp) ?_
  rw [Expr.operands_map, Expr.operands_map, List.forall₂_map_left_iff,
    List.forall₂_map_right_iff, List.forall₂_same]
  exact below

/-- The right-hand side of the equation of a slot. -/
def transfer (arena : Arena) (values : ExprId → Meaning) (id : ExprId) : Meaning :=
  match arena.slot? id with
  | some (.expr e) => interpretation.apply (e.map values)
  | some (.link (some target)) => values target
  | _ => ⊥

theorem transfer_expr (found : arena.slot? id = some (.expr e)) :
    interpretation.transfer arena values id = interpretation.apply (e.map values) := by
  unfold transfer
  rw [found]

theorem transfer_link (found : arena.slot? id = some (.link (some target))) :
    interpretation.transfer arena values id = values target := by
  unfold transfer
  rw [found]

theorem transfer_final (noExpr : ∀ e, arena.slot? id ≠ some (.expr e))
    (noLink : ∀ target, arena.slot? id ≠ some (.link (some target))) :
    interpretation.transfer arena values id = ⊥ := by
  unfold transfer
  split
  · rename_i e found
    exact absurd found (noExpr e)
  · rename_i target found
    exact absurd found (noLink target)
  · rfl

theorem transfer_mono (arena : Arena) (below : values ≤ values') :
    interpretation.transfer arena values ≤ interpretation.transfer arena values' := by
  intro id
  unfold transfer
  split
  · exact interpretation.apply_map_mono fun operand _ => below operand
  · exact below _
  · exact le_rfl

/-- All equations of an arena at once. -/
def system (arena : Arena) : (ExprId → Meaning) →o (ExprId → Meaning) where
  toFun := interpretation.transfer arena
  monotone' _ _ below := interpretation.transfer_mono arena below

/-- The least solution of the equations of an arena. -/
def least (arena : Arena) : ExprId → Meaning :=
  (interpretation.system arena).lfp

theorem transfer_least (arena : Arena) :
    interpretation.transfer arena (interpretation.least arena) = interpretation.least arena :=
  (interpretation.system arena).map_lfp

theorem least_expr (found : arena.slot? id = some (.expr e)) :
    interpretation.least arena id = interpretation.apply (e.map (interpretation.least arena)) := by
  rw [← interpretation.transfer_expr found, transfer_least]

theorem least_link (found : arena.slot? id = some (.link (some target))) :
    interpretation.least arena id = interpretation.least arena target := by
  conv_lhs => rw [← interpretation.transfer_least arena]
  exact interpretation.transfer_link found

theorem least_resolve (wellFormed : arena.WellFormed) (id : ExprId) :
    interpretation.least arena (arena.resolve id) = interpretation.least arena id := by
  obtain ⟨steps, chain⟩ := wellFormed.leads_resolve id
  generalize arena.resolve id = last at chain
  induction chain with
  | stop _ => rfl
  | link found _ inductionHypothesis =>
      rw [inductionHypothesis, interpretation.least_link found]

theorem least_of_stands (wellFormed : arena.WellFormed) (stands : arena.Stands id e) :
    interpretation.least arena id = interpretation.apply (e.map (interpretation.least arena)) := by
  rw [← interpretation.least_resolve wellFormed, interpretation.least_expr stands]

/-- If `∅` is least then unbound links have its meaning. -/
theorem least_get (nothing : interpretation.apply .nil = ⊥) (wellFormed : arena.WellFormed)
    (id : ExprId) : interpretation.least arena id =
      interpretation.apply ((arena.get id).map (interpretation.least arena)) := by
  unfold Arena.get
  split
  · rename_i e found
    rw [interpretation.least_of_stands wellFormed found]
  · rename_i noExpr
    rw [← interpretation.least_resolve wellFormed, ← interpretation.transfer_least arena,
      interpretation.transfer_final noExpr (wellFormed.resolve_final id)]
    exact nothing.symm

theorem least_eq_of_resolve (wellFormed : arena.WellFormed) {id' : ExprId}
    (same : arena.resolve id = arena.resolve id') :
    interpretation.least arena id = interpretation.least arena id' := by
  rw [← interpretation.least_resolve wellFormed id, same, interpretation.least_resolve wellFormed]

/-- Induction for the least solution.  The equations may be used on values that are cut down to
the least solution. -/
theorem least_le (values : ExprId → Meaning)
    (expr : ∀ id e, arena.slot? id = some (.expr e) →
      interpretation.apply (e.map fun o => values o ⊓ interpretation.least arena o) ≤ values id)
    (link : ∀ id target, arena.slot? id = some (.link (some target)) →
      values target ⊓ interpretation.least arena target ≤ values id) (id : ExprId) :
    interpretation.least arena id ≤ values id := by
  let capped : ExprId → Meaning := fun o => values o ⊓ interpretation.least arena o
  have closed : interpretation.transfer arena capped ≤ capped := by
    intro id
    refine le_inf ?_ ?_
    · by_cases isExpr : ∃ e, arena.slot? id = some (.expr e)
      · obtain ⟨e, found⟩ := isExpr
        rw [interpretation.transfer_expr found]
        exact expr id e found
      · by_cases isLink : ∃ target, arena.slot? id = some (.link (some target))
        · obtain ⟨target, found⟩ := isLink
          rw [interpretation.transfer_link found]
          exact link id target found
        · rw [interpretation.transfer_final (not_exists.mp isExpr) (not_exists.mp isLink)]
          exact bot_le
    · conv_rhs => rw [← interpretation.transfer_least arena]
      exact interpretation.transfer_mono arena (fun o => inf_le_right) id
  exact ((interpretation.system arena).lfp_le closed id).trans inf_le_left

/-! ## Cut links -/

/-- A solution of the equations of an arena in which some links do not stand for their targets
but for given bounds, cut down to the least solution. -/
structure CutSolution (arena : Arena) (tied : ExprId → Prop) (bound values : ExprId → Meaning) :
    Prop where
  le_least : ∀ id, values id ≤ interpretation.least arena id
  tied_eq : ∀ id, tied id → values id = bound id ⊓ interpretation.least arena id
  transfer_le : ∀ id, ¬ tied id → values id = interpretation.transfer arena values id

theorem exists_cutSolution (arena : Arena) (tied : ExprId → Prop) (bound : ExprId → Meaning) :
    ∃ values, interpretation.CutSolution arena tied bound values := by
  classical
  let cut : (ExprId → Meaning) →o (ExprId → Meaning) :=
    { toFun := fun values id =>
        if tied id then bound id ⊓ interpretation.least arena id
        else interpretation.transfer arena values id
      monotone' := by
        intro values values' below id
        dsimp only
        split
        · exact le_rfl
        · exact interpretation.transfer_mono arena below id }
  have fixed : ∀ id, cut.lfp id = cut cut.lfp id := fun id => by rw [cut.map_lfp]
  refine ⟨cut.lfp, ?_, ?_, ?_⟩
  · intro id
    refine cut.lfp_le (a := interpretation.least arena) ?_ id
    intro id
    change (if tied id then _ else _) ≤ _
    split
    · exact inf_le_right
    · exact (congrFun (interpretation.transfer_least arena) id).le
  · intro id isTied
    rw [fixed]
    exact if_pos isTied
  · intro id free
    rw [fixed]
    exact if_neg free

/-- If cutting links to their bounds keeps what the links are bound to below these bounds, then
the least solution keeps the links below them. -/
theorem least_le_of_tied (tied : ExprId → Prop) (bound : ExprId → Meaning)
    (step : ∀ values, interpretation.CutSolution arena tied bound values →
      ∀ id, tied id → interpretation.transfer arena values id ≤ bound id)
    (id : ExprId) (isTied : tied id) : interpretation.least arena id ≤ bound id := by
  obtain ⟨values, cut⟩ := interpretation.exists_cutSolution arena tied bound
  have closed : interpretation.transfer arena values ≤ values := by
    intro id
    by_cases isTied : tied id
    · rw [cut.tied_eq id isTied]
      refine le_inf (step values cut id isTied) ?_
      conv_rhs => rw [← interpretation.transfer_least arena]
      exact interpretation.transfer_mono arena cut.le_least id
    · exact (cut.transfer_le id isTied).ge
  have below : interpretation.least arena id ≤ values id :=
    (interpretation.system arena).lfp_le closed id
  rw [cut.tied_eq id isTied] at below
  exact below.trans inf_le_left

/-! ## Bisimilar expressions and new slots -/

end Interpretation

namespace Arena

/-- Related numbers are the same, or stand for the same operator on related operands. -/
def IsBisimulation (arena : Arena) (Related : ExprId → ExprId → Prop) : Prop :=
  ∀ x y, Related x y → x = y ∨ ∃ e e', arena.slot? x = some (.expr e) ∧
    arena.slot? y = some (.expr e') ∧ e.shape = e'.shape ∧
    List.Forall₂ (fun o o' => Related (arena.resolve o) (arena.resolve o'))
      e.operands e'.operands

theorem IsBisimulation.flip {arena : Arena} {Related : ExprId → ExprId → Prop}
    (bisimulation : arena.IsBisimulation Related) :
    arena.IsBisimulation fun x y => Related y x := by
  intro x y related
  rcases bisimulation y x related with rfl | ⟨e, e', found, found', sameShape, operands⟩
  · exact .inl rfl
  · exact .inr ⟨e', e, found', found, sameShape.symm, operands.flip⟩

end Arena

namespace Interpretation

variable {Meaning : Type} [CompleteLattice Meaning] (interpretation : Interpretation Meaning)
  {arena before after : Arena} {id : ExprId}

theorem least_le_of_bisimulation (wellFormed : arena.WellFormed)
    {Related : ExprId → ExprId → Prop} (bisimulation : arena.IsBisimulation Related)
    {x y : ExprId} (related : Related (arena.resolve x) (arena.resolve y)) :
    interpretation.least arena x ≤ interpretation.least arena y := by
  -- the values are the meanings that all related numbers share
  let values : ExprId → Meaning := fun x =>
    ⨅ y, ⨅ _ : Related (arena.resolve x) (arena.resolve y), interpretation.least arena y
  refine (interpretation.least_le values ?_ ?_ x).trans (iInf₂_le y related)
  · intro id e found
    refine le_iInf₂ fun y related => ?_
    rw [Arena.resolve_of_expr found] at related
    rcases bisimulation _ _ related with same | ⟨e₁, e', found₁, found', sameShape, operands⟩
    · rw [← interpretation.least_resolve wellFormed y, ← same, interpretation.least_expr found]
      exact interpretation.apply_map_mono fun operand _ => inf_le_right
    · rw [found] at found₁
      cases found₁
      rw [← interpretation.least_resolve wellFormed y, interpretation.least_expr found']
      refine interpretation.monotone (by simpa using sameShape) ?_
      rw [Expr.operands_map, Expr.operands_map, List.forall₂_map_left_iff,
        List.forall₂_map_right_iff]
      refine operands.imp fun o o' related => ?_
      exact inf_le_left.trans (iInf₂_le o' related)
  · intro id target found
    refine le_iInf₂ fun y related => ?_
    rw [wellFormed.resolve_link found] at related
    exact inf_le_left.trans (iInf₂_le y related)

theorem least_extends (extending : before.Extends after) (wellFormed : before.WellFormed)
    (inside : id.number < before.size) :
    interpretation.least after id = interpretation.least before id := by
  apply le_antisymm
  · let values : ExprId → Meaning := fun id =>
      if id.number < before.size then interpretation.least before id else ⊤
    have outside : ∀ id, ¬ id.number < before.size → values id = ⊤ := fun id outside => if_neg outside
    have within : ∀ id, id.number < before.size → values id = interpretation.least before id :=
      fun id inside => if_pos inside
    rw [← within id inside]
    refine interpretation.least_le values ?_ ?_ id
    · intro id e found
      by_cases inside : id.number < before.size
      · rw [extending id inside] at found
        rw [within id inside, interpretation.least_expr found]
        refine interpretation.apply_map_mono fun operand member => inf_le_left.trans ?_
        rw [within operand (wellFormed.operand_lt found operand member)]
      · rw [outside id inside]
        exact le_top
    · intro id target found
      by_cases inside : id.number < before.size
      · rw [extending id inside] at found
        rw [within id inside, interpretation.least_link found]
        refine inf_le_left.trans ?_
        rw [within target (wellFormed.target_lt found)]
      · rw [outside id inside]
        exact le_top
  · refine interpretation.least_le (interpretation.least after) ?_ ?_ id
    · intro id e found
      rw [interpretation.least_expr (extending.grows.expr found)]
      exact interpretation.apply_map_mono fun operand _ => inf_le_left
    · intro id target found
      rw [interpretation.least_link (extending.grows.bound found)]
      exact inf_le_left

end Interpretation

end Residual
