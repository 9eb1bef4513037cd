import Residual.Proofs.Grammar.Correctness

/-!
# Nullability stratum by stratum

A provisional value of a cycle can be wrong, and a complement turns what is too small into what is
too large.  If another cycle above the complement takes this up then it can keep itself alive: of
the rules `R = S | ε`, `S = R+` and `P = ¬S | P`, the last one is found to have the empty string
if `R | P` is asked for first, and not to have it if `P` is.

Where no complement stands between two cycles this cannot happen.  Then nullability is right stratum
by stratum, and therefore independent of what was asked before.
-/

set_option autoImplicit false

namespace Residual.Grammar

open Memo

variable {grammar : Grammar} {id : ExprId}

/-- What is left of a grammar after it was asked whether some expressions have the empty string. -/
def askNullable (ids : List ExprId) (grammar : Grammar) : Grammar :=
  ids.foldl (fun grammar id => (nullable id grammar).2) grammar

theorem Coherent.askNullable (coherent : grammar.Coherent) {ids : List ExprId}
    (inside : ∀ id ∈ ids, id.number < grammar.arena.size) :
    (askNullable ids grammar).Coherent ∧ (askNullable ids grammar).arena = grammar.arena := by
  induction ids generalizing grammar with
  | nil => exact ⟨coherent, rfl⟩
  | cons id ids inductionHypothesis =>
      obtain ⟨advances, arena, _⟩ :=
        (coherent.yields_nullable (inside id (by simp))).settle false
      rw [← arena] at inside ⊢
      exact inductionHypothesis advances.coherent fun id member => inside id (by simp [member])

/-- If no complement below an expression is on a cycle or between two cycles, and no computation
stopped at the cap, then nullability is right stratum by stratum, whatever was asked before. -/
theorem nullable_iff_stratified (reachable : grammar.Reachable)
    (inside : id.number < grammar.arena.size) (layered : grammar.arena.Layered id) :
    ∃ lang, grammar.arena.Stratified id lang ∧
      ∀ asked : List ExprId, (∀ other ∈ asked, other.number < grammar.arena.size) →
        (nullable id (askNullable asked grammar)).2.tables.nullability.truncated = false →
        ((nullable id (askNullable asked grammar)).1 = true ↔ [] ∈ lang) := by
  obtain ⟨lang, stratified⟩ := reachable.coherent.wellFormed.exists_stratified_of_layered layered
  refine ⟨lang, stratified, fun asked asking complete => ?_⟩
  obtain ⟨coherent, arena⟩ := reachable.coherent.askNullable asking
  rw [← arena] at inside layered stratified
  obtain ⟨⟨nullability, tables, sound, _, _, found⟩, _⟩ :=
    (yields_computeNullable coherent.wellFormed (.refl _) coherent.nullability inside).settle false
  have isTable : (nullable id (Grammar.askNullable asked grammar)).2.tables.nullability =
      nullability := congrArg Tables.nullability tables
  rw [isTable] at complete
  exact sound.exact complete found layered stratified

/-- The grammar of `¬X` for the rule `X = X{0}`.  The complement has the number five. -/
def complementOfRule : Grammar :=
  (Grammar.not (.expr ⟨3⟩) selfRepetition).2

theorem complementOfRule_reachable : complementOfRule.Reachable := by
  obtain ⟨config, evolves⟩ := selfRepetition_reachable
  exact ⟨config, .call (.not (.expr ⟨3⟩)) evolves (by decide)⟩

theorem complementOfRule_child {x y : ExprId} (start : x = ⟨4⟩ ∨ x = ⟨5⟩)
    (child : complementOfRule.arena.Child x y) : y = ⟨4⟩ := by
  rcases start with rfl | rfl
  · exact List.mem_singleton.mp child
  · exact List.mem_singleton.mp child

theorem complementOfRule_reaches {x y : ExprId} (start : x = ⟨4⟩ ∨ x = ⟨5⟩)
    (path : Relation.ReflTransGen complementOfRule.arena.Child x y) : y = x ∨ y = ⟨4⟩ := by
  induction path with
  | refl => exact .inl rfl
  | tail _ child inductionHypothesis =>
      refine .inr (complementOfRule_child ?_ child)
      rcases inductionHypothesis with rfl | rfl
      · exact start
      · exact .inl rfl

theorem complementOfRule_layered : complementOfRule.arena.Layered ⟨5⟩ := by
  intro x reaches cycle n onward complement
  obtain ⟨y, child, path⟩ := Relation.TransGen.head'_iff.mp cycle
  rcases complementOfRule_reaches (.inr rfl) reaches with rfl | rfl
  · obtain rfl := complementOfRule_child (.inr rfl) child
    rcases complementOfRule_reaches (.inl rfl) path with same | same <;> cases same
  · rcases complementOfRule_reaches (.inl rfl) onward with rfl | rfl <;> cases complement

/-- The equation of the rule asks for nothing. -/
theorem complementOfRule_accessible {arena : Arena} (same : arena = complementOfRule.arena)
    (wellFormed : arena.WellFormed) {x : ExprId} (start : x = ⟨4⟩ ∨ x = ⟨5⟩) :
    Acc (fun other key => (arena.nullabilitySystem wellFormed).Asks key other) x := by
  subst same
  have rule : Acc (fun other key =>
      (complementOfRule.arena.nullabilitySystem wellFormed).Asks key other) ⟨4⟩ := by
    refine .intro _ fun other asks => ?_
    have needs : (Pure.pure true : Reading ExprId Bool Bool).Needs other := asks.1
    cases needs
  refine .intro _ fun other asks => ?_
  rwa [complementOfRule_child start asks.2]

/-- No computation stops at the cap. -/
theorem complementOfRule_complete :
    (nullable ⟨5⟩ (askNullable [⟨3⟩] complementOfRule)).2.tables.nullability.truncated = false := by
  have coherent := complementOfRule_reachable.coherent
  have ruleInside : (⟨3⟩ : ExprId).number < complementOfRule.arena.size := by decide
  have inside : (⟨5⟩ : ExprId).number < complementOfRule.arena.size := by decide
  obtain ⟨⟨_, arena, _, _⟩, settles⟩ := (yields_computeNullable_settles coherent.wellFormed (.refl _)
    coherent.nullability ruleInside).settle false
  obtain ⟨advances, _⟩ := (coherent.yields_nullable ruleInside).settle false
  rw [← arena] at inside
  obtain ⟨_, settles'⟩ := (yields_computeNullable_settles advances.coherent.wellFormed (.refl _)
    advances.coherent.nullability inside).settle false
  refine Bool.eq_false_iff.mpr fun truncated => ?_
  have truncated := settles.truncated_of_acc (complementOfRule_accessible rfl _ (.inl rfl))
    (settles'.truncated_of_acc (complementOfRule_accessible arena _ (.inr ?_)) truncated)
  · cases truncated
  · rw [arena]
    rfl

theorem nullable_iff_stratified_complement : ∃ lang, complementOfRule.arena.Stratified ⟨5⟩ lang ∧
    ((nullable ⟨5⟩ (askNullable [⟨3⟩] complementOfRule)).1 = true ↔ [] ∈ lang) := by
  obtain ⟨lang, stratified, answers⟩ :=
    nullable_iff_stratified complementOfRule_reachable (by decide) complementOfRule_layered
  exact ⟨lang, stratified, answers [⟨3⟩] (by decide) complementOfRule_complete⟩

end Residual.Grammar
