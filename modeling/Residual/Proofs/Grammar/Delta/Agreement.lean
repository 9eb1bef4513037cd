import Residual.Proofs.Arena.Search
import Residual.Proofs.Grammar.Reachable

/-!
# Deltas and nullability

An expression and its delta are asked for the empty string in two ways: nullability is iterated
until it does not change, and a delta is made in one pass.  Without `.` and complements a delta
never has the empty string wrongly.  It has it rightly unless two different expressions with the
empty string depend on each other, whatever was asked before.
-/

set_option autoImplicit false

namespace Residual.Grammar

open Memo Interpretation Relation

variable {grammar : Grammar} {id : ExprId}

/-- The empty string of a delta is that of the expression. -/
theorem nullable_delta_eq_nullable (reachable : grammar.Reachable)
    (inside : id.number < grammar.arena.size) (plain : grammar.arena.Plain id)
    (complete : (nullable id (delta id grammar).2).2.tables.nullability.truncated = false) :
    ((nullable (delta id grammar).1 (delta id grammar).2).1 = true →
      (nullable id (delta id grammar).2).1 = true) ∧
    (grammar.arena.Untangled id → (nullable (delta id grammar).1 (delta id grammar).2).1 =
      (nullable id (delta id grammar).2).1) := by
  have coherent := reachable.coherent
  have wellFormed := coherent.wellFormed
  have reduces : grammar.Reduces id (delta id grammar).1 (delta id grammar).2 :=
    coherent.reduces inside
  generalize (delta id grammar).1 = value at *
  generalize (delta id grammar).2 = after at *
  obtain ⟨advances, _, _, _, isDelta⟩ := reduces
  have coherent' := advances.coherent
  have extending := advances.extending
  obtain ⟨told, tells, supports⟩ := isDelta.tells
  have supports := supports.least (wellFormed.throughout_resolve.mpr plain)
  rw [words.least_resolve wellFormed, Arena.untangled_resolve wellFormed,
    ← words.least_extends extending wellFormed inside] at supports
  have ofDelta : (nullable value after).1 = true ↔ told = true := by
    obtain ⟨lang, denotes, exact⟩ := tells.denotes coherent'.wellFormed
    have inside' := tells.lt_size coherent'.wellFormed
    have isNullable := ((coherent'.yields_nullable inside').settle false).2.2.1
    exact (isNullable.exact .structural nofun lang denotes).trans exact.symm
  have ofExpression : (nullable id after).1 = true ↔ [] ∈ words.least after.arena id := by
    have inside' := advances.lt_size inside
    have isNullable := ((coherent'.yields_nullable inside').settle false).2.2.1
    refine isNullable.exact .least (fun _ => complete) _ ⟨?_, rfl⟩
    exact (extending.throughout_iff wellFormed coherent'.wellFormed inside nofun).mpr
      plain.complementFree
  refine ⟨fun isTrue => ofExpression.mpr (supports.1 (ofDelta.mp isTrue)), fun untangled => ?_⟩
  rw [Bool.eq_iff_iff, ofDelta, ofExpression]
  exact ⟨supports.1, supports.2 untangled⟩

/-- The grammar of the rule `A = ('a' A)*`, whose reference is the expression with the number
three. -/
def nestedRepetition : Grammar :=
  (recursive (fun link => do star (← cat 'a' link)) (ofConfig {})).2

theorem nestedRepetition_reachable : nestedRepetition.Reachable :=
  ⟨{}, .call (.tie ⟨3⟩ ⟨6⟩) (.call (.star (.expr ⟨5⟩)) (.call (.cat (.char 'a') (.expr ⟨3⟩))
    (.call .declare .refl nofun) (by decide)) (by decide)) (by decide)⟩

theorem nestedRepetition_plain : nestedRepetition.arena.Plain ⟨3⟩ :=
  Arena.throughout_of_closed (show _ ∈ [(⟨6⟩ : ExprId), ⟨5⟩, ⟨4⟩] by decide) (by decide) (by decide)

/-- What is repeated is not asked for. -/
theorem not_consults_nestedRepetition (other : ExprId) :
    ¬ nestedRepetition.arena.Consults ⟨6⟩ other := by
  intro consults
  cases consults

theorem nestedRepetition_untangled : nestedRepetition.arena.Untangled ⟨3⟩ := by
  intro x y path there
  rcases path.cases_head with rfl | ⟨_, consults, _⟩
  · obtain ⟨_, consults, _⟩ := TransGen.head'_iff.mp there
    exact absurd consults (not_consults_nestedRepetition _)
  · exact absurd consults (not_consults_nestedRepetition _)

/-- No pass is repeated for it. -/
theorem nullable_nestedRepetition :
    (nullable ⟨3⟩ (delta ⟨3⟩ nestedRepetition).2).2.tables.nullability.truncated = false := by
  have coherent := nestedRepetition_reachable.coherent
  have inside : (⟨3⟩ : ExprId).number < nestedRepetition.arena.size := by decide
  have reduces : nestedRepetition.Reduces ⟨3⟩ (delta ⟨3⟩ nestedRepetition).1
      (delta ⟨3⟩ nestedRepetition).2 := coherent.reduces inside
  have extending := reduces.advances.extending
  have coherent' := reduces.advances.coherent
  have inside' := reduces.advances.lt_size inside
  obtain ⟨_, settles⟩ := (yields_computeNullable_settles coherent'.wellFormed (.refl _)
    coherent'.nullability inside').settle false
  refine Bool.eq_false_iff.mpr fun truncated => ?_
  have resolved : (delta ⟨3⟩ nestedRepetition).2.arena.resolve ⟨3⟩ = ⟨6⟩ :=
    extending.resolve coherent.wellFormed inside
  refine absurd (reduces.truncated (settles.truncated_of_acc ?_ truncated)) (by decide)
  rw [resolved]
  refine .intro _ fun other asks => absurd ?_ (not_consults_nestedRepetition other)
  have consults : (delta ⟨3⟩ nestedRepetition).2.arena.Consults ⟨6⟩ other := asks.1
  unfold Arena.Consults at consults ⊢
  rwa [Arena.nullabilityEquation_extends extending coherent.wellFormed (by decide)]

theorem nullable_delta_eq_nullable_nestedRepetition :
    ¬ nestedRepetition.arena.Acyclic ⟨3⟩ ∧
      (nullable (delta ⟨3⟩ nestedRepetition).1 (delta ⟨3⟩ nestedRepetition).2).1 =
        (nullable ⟨3⟩ (delta ⟨3⟩ nestedRepetition).2).1 := by
  refine ⟨fun acyclic => acyclic ⟨6⟩ .refl ?_, ?_⟩
  · exact .tail (.single (show ⟨5⟩ ∈ nestedRepetition.arena.operands ⟨6⟩ by decide))
      (show ⟨6⟩ ∈ nestedRepetition.arena.operands ⟨5⟩ by decide)
  · exact (nullable_delta_eq_nullable nestedRepetition_reachable (by decide)
      nestedRepetition_plain nullable_nestedRepetition).2 nestedRepetition_untangled

end Residual.Grammar
