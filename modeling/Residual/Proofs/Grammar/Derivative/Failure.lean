import Residual.Proofs.Arena.Mirror
import Residual.Proofs.Grammar.Derivative.Entries

/-!
# Where derivations fail

What is exposed in an expression with a known derivative has a known derivative too, and none of it
is an infinite repetition.  So a derivation fails exactly where an infinite repetition is exposed.
-/

set_option autoImplicit false

namespace Residual

open Memo Relation

variable {before after grammar : Grammar} {id o answer : ExprId} {c : Char}

/-- Expressions with a language expose only what they expose by wrong answers too. -/
theorem Arena.WellFormed.faultless_of_bounded {arena : Arena} (wellFormed : arena.WellFormed)
    (hasLanguage : ∃ sense lang, arena.Means sense id lang)
    (bounded : arena.Bounded arena.ContainsEmpty id) : arena.Faultless id := by
  have below : ∀ id, (∃ sense lang, arena.Means sense id lang) →
      ∀ o ∈ (arena.get id).operands, ∃ sense lang, arena.Means sense o lang := by
    rintro id ⟨sense, lang, means⟩ o member
    obtain ⟨_, L, below, _⟩ := wellFormed.means_operands means
    exact ⟨sense, L o, below o member⟩
  refine bounded.anti hasLanguage below ?_
  rintro id ⟨sense, lang, means⟩ isNullable
  refine ⟨lang, wellFormed.speaks_of_means means, ?_⟩
  cases sense with
  | structural => exact (isNullable.exact .structural rfl lang means).mp rfl
  | least => exact means.2 ▸ isNullable.bound rfl means.1

namespace Grammar

/-- The expression has a language in a sense in which the answers about empty strings are right. -/
def Judges (grammar : Grammar) (id : ExprId) : Prop :=
  ∃ sense, grammar.tables.nullability.Trusts sense ∧ ∃ lang, grammar.arena.Means sense id lang

theorem Judges.operand (judges : grammar.Judges id) (wellFormed : grammar.arena.WellFormed)
    (member : o ∈ (grammar.arena.get id).operands) : grammar.Judges o := by
  obtain ⟨sense, trusted, lang, means⟩ := judges
  obtain ⟨_, L, below, _⟩ := wellFormed.means_operands means
  exact ⟨sense, trusted, L o, below o member⟩

theorem Judges.containsEmpty_iff (judges : grammar.Judges id)
    (wellFormed : grammar.arena.WellFormed) {isEmpty : Bool}
    (isNullable : grammar.arena.IsNullable grammar.tables.nullability.Trusts id isEmpty) :
    grammar.arena.ContainsEmpty id ↔ isEmpty = true := by
  obtain ⟨sense, trusted, lang, means⟩ := judges
  rw [isNullable.exact sense trusted lang means]
  constructor
  · rintro ⟨lang', speaks, member⟩
    rwa [wellFormed.speaks_unique speaks (wellFormed.speaks_of_means means)] at member
  · exact fun member => ⟨lang, wellFormed.speaks_of_means means, member⟩

/-- What an expression with a known derivative exposes has a known derivative. -/
theorem DerivativesFollow.exists_knows (follow : grammar.DerivativesFollow)
    (wellFormed : grammar.arena.WellFormed) (judges : grammar.Judges id)
    (knows : grammar.Knows ⟨grammar.arena.resolve id, c⟩ answer)
    (exposes : (grammar.arena.get id).Exposes grammar.arena.ContainsEmpty o) :
    ∃ answer, grammar.Knows ⟨grammar.arena.resolve o, c⟩ answer := by
  obtain ⟨value, settled, _⟩ := knows
  obtain ⟨base, derives⟩ := (follow.follows settled).derives
  rw [wellFormed.get_resolve] at derives
  have decided : ∀ first ∈ (grammar.arena.get id).operands, grammar.arena.ContainsEmpty first →
      ¬ grammar.arena.IsNullable grammar.tables.nullability.Trusts first false := by
    intro first member isEmpty isNullable
    have := ((judges.operand wellFormed member).containsEmpty_iff wellFormed isNullable).mp isEmpty
    simp at this
  rcases derives.exists_told exposes decided with known | ⟨operand, answer, isOption, knows⟩
  · exact known
  · -- an optional expression was derived through its union with `ε`
    obtain ⟨_, settled', _⟩ := knows
    obtain ⟨_, derives⟩ := (follow.follows settled').derives
    rw [Arena.get_of_stands (Arena.stands_of_expr isOption)] at derives
    cases derives with
    | alt left _ _ => exact ⟨_, left⟩

theorem DerivativesFollow.bounded (follow : grammar.DerivativesFollow)
    (wellFormed : grammar.arena.WellFormed) (judges : grammar.Judges id)
    (knows : grammar.Knows ⟨grammar.arena.resolve id, c⟩ answer) :
    grammar.arena.Bounded grammar.arena.ContainsEmpty id := by
  suffices known : ∀ {target}, ReflTransGen
      (fun id o => (grammar.arena.get id).Exposes grammar.arena.ContainsEmpty o) id target →
      grammar.Judges target ∧ ∃ answer, grammar.Knows ⟨grammar.arena.resolve target, c⟩ answer by
    intro target lang exposed
    obtain ⟨_, _, _, settled, _⟩ := known exposed
    have bounded := (follow.follows settled).bounded lang
    rwa [wellFormed.get_resolve] at bounded
  intro target exposed
  induction exposed with
  | refl => exact ⟨judges, answer, knows⟩
  | tail _ exposes inductionHypothesis =>
      obtain ⟨judges, _, knows⟩ := inductionHypothesis
      exact ⟨judges.operand wellFormed exposes.mem_operands,
        follow.exists_knows wellFormed judges knows exposes⟩

/-- A derivation fails if an infinite repetition is exposed, and else its answer is known. -/
inductive Outcome (grammar : Grammar) (id : ExprId) (c : Char) : Except Error ExprId → Prop where
  | failure : grammar.arena.ExposesUnbounded id → Outcome grammar id c (.error .unboundedRepetition)
  | success {answer : ExprId} : ¬ grammar.arena.ExposesUnbounded id →
      grammar.Knows ⟨grammar.arena.resolve id, c⟩ answer → Outcome grammar id c (.ok answer)

/-- What is exposed is not touched by what is added to a grammar. -/
theorem Advances.exposesUnbounded_iff (advances : before.Advances after) (coherent : before.Coherent)
    (inside : id.number < before.arena.size) :
    after.arena.ExposesUnbounded id ↔ before.arena.ExposesUnbounded id := by
  have wellFormed := coherent.wellFormed
  have wellFormed' := advances.coherent.wellFormed
  have mirrors := (before.arena.mirrors_self id).extends (.refl _) advances.extending wellFormed
    wellFormed inside inside
  exact ⟨mirrors.symm.exposesUnbounded wellFormed' wellFormed,
    mirrors.exposesUnbounded wellFormed wellFormed'⟩

/-- The grammar advances, and its derivatives are still those that were made by the rules. -/
structure Differentiates (before : Grammar) (id : ExprId) (c : Char) (result : Except Error ExprId)
    (after : Grammar) : Prop where
  advances : before.Advances after
  follow : after.DerivativesFollow
  inside : ∀ {answer}, result = .ok answer → answer.number < after.arena.size
  outcome : after.Judges id → after.Outcome id c result

namespace Coherent

variable (coherent : grammar.Coherent) (follow : grammar.DerivativesFollow)
  (inside : id.number < grammar.arena.size)

include coherent follow inside

theorem deriveDefined_differentiates : Gives (Grammar.deriveDefined id c) grammar fun result after =>
    grammar.Differentiates id c result after := by
  refine (((coherent.deriveDefined inside).and (coherent.deriveDefined_follow follow inside)).and
    (coherent.deriveDefined_cases inside)).mono ?_
  rintro result after ⟨⟨derives, follow'⟩, value, evaluated, results, finished, isResult⟩
  have extending := derives.advances.extending
  have wellFormed := derives.advances.coherent.wellFormed
  refine ⟨derives.advances, follow', fun isResult => (derives.isDerivative isResult).1,
    fun judges => ?_⟩
  rcases isResult with ⟨noFault, rfl, rfl⟩ | ⟨refused, rfl, _⟩
  · have knows : after.Knows ⟨after.arena.resolve id, c⟩ value := by
      rw [extending.resolve coherent.wellFormed inside]
      exact ⟨value, finished.answered, rfl⟩
    exact .success (Arena.not_exposesUnbounded_iff.mpr
      (follow'.bounded wellFormed judges knows)) knows
  · refine .failure ((derives.advances.exposesUnbounded_iff coherent inside).mpr ?_)
    by_contra notExposed
    obtain ⟨sense, _, lang, means⟩ := judges
    have faultless := coherent.wellFormed.faultless_of_bounded
      ⟨sense, lang, (extending.means_iff coherent.wellFormed wellFormed inside).mp means⟩
      (Arena.not_exposesUnbounded_iff.mp notExposed)
    obtain ⟨_, answered⟩ := derives.faultless faultless
    cases answered

theorem derivative_differentiates (defined : grammar.arena.Defined id) :
    Gives (Grammar.derivative id c) grammar fun result after =>
      grammar.Differentiates id c result after := by
  refine (gives_bind _ _ _).mpr ((gives_get _).mpr ?_)
  rw [coherent.undefined?_eq_none defined]
  exact coherent.deriveDefined_differentiates follow inside

end Coherent

end Grammar

end Residual
