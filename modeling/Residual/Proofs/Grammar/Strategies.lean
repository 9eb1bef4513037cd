import Residual.Proofs.Grammar.Derivative.Preservation
import Residual.Proofs.Grammar.Transitions

/-!
# The strategies of the tables

Whatever is called, the tables of truth values iterate as often as the configuration says, and the
other ones make a single pass.
-/

set_option autoImplicit false

namespace Residual.Grammar

open Memo

variable {before after grammar : Grammar} {id : ExprId}

/-- Both grammars evaluate by the same strategies. -/
def SameStrategies (before after : Grammar) : Prop :=
  after.tables.strategies = before.tables.strategies

theorem SameStrategies.refl (grammar : Grammar) : grammar.SameStrategies grammar := rfl

theorem SameStrategies.trans ⦃first second third : Grammar⦄ (earlier : first.SameStrategies second)
    (later : second.SameStrategies third) : first.SameStrategies third :=
  Eq.trans later earlier

theorem keeps_strategies_renderings (id : ExprId) : Keeps SameStrategies (computeRendering id) := by
  have preserves : renderings.Preserves SameStrategies :=
    { refl := .refl
      trans := .trans
      modifyTable := fun _ keeps _ => by
        simp [SameStrategies, Tables.strategies, renderings, analysis, Recursion.ofReadings, keeps]
      noteRepeated := .refl
      noteExhausted := fun _ => .refl
      bottom := fun _ => keeps_pure .refl _
      step := fun keeps key => keeps_get_bind fun state =>
        keeps_run .refl .trans keeps (state.arena.renderingEquation key)
      finish := fun _ _ value => keeps_pure .refl value }
  exact keeps_get_bind fun _ => preserves.keeps_solve _ _

theorem derivationKeeps_strategies : DerivationKeeps SameStrategies where
  refl := .refl
  trans := .trans
  push _ := keeps_lift _ .refl
  token text := keeps_lift _ fun state => congrArg Tables.strategies (spares_token text state)
  nullable id state := (keeps_untouched_nullable id state).mono fun _ _ untouched =>
    untouched.strategies
  fail _ := keeps_modify _ .refl

theorem keeps_strategies_deltas (id : ExprId) : Keeps SameStrategies (computeDelta id) := by
  have preserves : deltas.Preserves SameStrategies :=
    { refl := .refl
      trans := .trans
      modifyTable := fun _ keeps _ => by simp [SameStrategies, Tables.strategies, deltas, keeps]
      noteRepeated := .refl
      noteExhausted := fun _ => .refl
      bottom := fun _ => keeps_pure .refl _
      step := derivationKeeps_strategies.deltaStep
      finish := fun _ _ value => keeps_pure .refl value }
  exact keeps_get_bind fun _ => preserves.keeps_solve _ _

/-- The tables evaluate as they did when they were empty. -/
def IsStrategic (grammar : Grammar) : Prop :=
  grammar.tables.strategies = (Tables.empty grammar.config.fixpoint).strategies

theorem Transition.isStrategic (transition : before.Transition after) (coherent : before.Coherent)
    (strategic : before.IsStrategic) : after.IsStrategic := by
  have carry : ∀ {after : Grammar}, before.Grows after → before.SameStrategies after →
      after.IsStrategic := by
    intro after grows same
    unfold IsStrategic
    rw [same, strategic, grows.config]
  cases transition with
  | widen widens => exact carry widens.grows widens.untouched.strategies
  | @render id inside =>
      have rendered := ((yields_computeRendering coherent.wellFormed coherent.renderings
        inside).and_ensures (keeps_strategies_renderings id before)).settle ellipsis
      exact carry (coherent.render inside).grows rendered.2
  | @delta id inside =>
      have reduced := ((coherent.yields_computeDelta inside).and_ensures
        (keeps_strategies_deltas id before)).settle .nil
      exact carry reduced.1.advances.grows reduced.2
  | @derive id c inside =>
      have grows := (coherent.deriveDefined inside (c := c)).advances.grows
      obtain ⟨nullability, derivatives, tables⟩ := coherent.deriveDefined_tables inside (c := c)
      have sameNullability := coherent.nullability.strategy_eq
      have sameNullability' := grows.coherent.nullability.strategy_eq
      have sameDerivatives := coherent.derivatives.singlePass
      have sameDerivatives' := grows.coherent.derivatives.singlePass
      rw [tables, grows.config] at sameNullability'
      rw [tables] at sameDerivatives'
      refine carry grows ?_
      unfold SameStrategies Tables.strategies
      rw [tables, sameNullability, sameNullability', sameDerivatives, sameDerivatives']
  | renew grows isEmpty =>
      unfold IsStrategic
      rw [isEmpty]

theorem Reachable.isStrategic (reachable : grammar.Reachable) : grammar.IsStrategic :=
  reachable.of_transitions (fun coherent transition => transition.isStrategic coherent) fun _ => rfl

end Residual.Grammar
