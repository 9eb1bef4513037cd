import Residual.Proofs.Arena.Mirror
import Residual.Proofs.Grammar.Transitions

/-!
# The derivatives that are known

In every grammar that calls can lead to, a derivative that is known was made by the rules from
derivatives that are known too, and it is no infinite repetition's: a fault would have emptied the
table.  So whatever is exposed in an expression has a known derivative if the expression has one.

A repetition `L{1}` is derived like `L`.  Where this goes round in a circle the derivative is `∅`.
-/

set_option autoImplicit false

namespace Residual

open Memo Relation Interpretation

namespace Interpretation

variable {arena : Arena} {id : ExprId}

/-- Whether an expression is not `∅`. -/
def something : Interpretation Prop where
  apply e := e.shape ≠ .nil
  monotone sameShape _ := by rw [sameShape]

theorem something_least_iff (wellFormed : arena.WellFormed) :
    something.least arena id ↔ arena.get id ≠ .nil := by
  rw [something.least_get (eq_false fun isSomething => isSomething rfl) wellFormed]
  change ((arena.get id).map _).shape ≠ .nil ↔ _
  rw [Expr.shape_map]
  cases arena.get id <;> simp [Expr.shape, Expr.map]

end Interpretation

namespace Arena

variable {arena before after : Arena} {id id' : ExprId} {answer : Bool} {senses : Sense → Prop}

theorem IsNullable.extends (isNullable : before.IsNullable senses id answer)
    (extending : before.Extends after) (wellFormed : before.WellFormed)
    (wellFormed' : after.WellFormed) (inside : id.number < before.size) :
    after.IsNullable senses id answer where
  bound isTrue free := by
    rw [Interpretation.words.least_extends extending wellFormed inside]
    exact isNullable.bound isTrue
      ((extending.throughout_iff wellFormed wellFormed' inside nofun).mp free)
  exact sense trusted lang means :=
    isNullable.exact sense trusted lang ((extending.means_iff wellFormed wellFormed' inside).mp means)

/-- What is repeated once, and again once, and so on, is something else in the end. -/
inductive Ends (arena : Arena) : ExprId → Prop where
  | other {id : ExprId} : (∀ lang, arena.get id ≠ .rep lang (.finite 1)) → Ends arena id
  | once {id lang : ExprId} : arena.get id = .rep lang (.finite 1) → Ends arena lang → Ends arena id

theorem Ends.of_get_eq (ends : arena.Ends id) (same : arena.get id' = arena.get id) :
    arena.Ends id' := by
  cases ends with
  | other different => exact .other (same ▸ different)
  | once isOnce ends => exact .once (same.trans isOnce) ends

theorem Ends.extends (ends : before.Ends id) (extending : before.Extends after)
    (wellFormed : before.WellFormed) (inside : id.number < before.size) : after.Ends id := by
  induction ends with
  | other different => exact .other (by rwa [extending.get wellFormed inside])
  | @once id lang isOnce _ inductionHypothesis =>
      have member : lang ∈ (before.get id).operands := by simp [isOnce, Expr.operands]
      exact .once (by rwa [extending.get wellFormed inside])
        (inductionHypothesis (wellFormed.operand_lt_of_get member))

end Arena

namespace Grammar

variable {before after grammar : Grammar} {key : Derivation} {id value answer : ExprId} {c : Char}
  {faultless : Prop} {root : Derivation} {rootValue : ExprId} {results : List (Result Derivation)}

/-- The number stands for a derivative that is known. -/
def Knows (grammar : Grammar) (key : Derivation) (answer : ExprId) : Prop :=
  ∃ value, grammar.tables.derivatives.settled[key]? = some value ∧
    grammar.arena.resolve answer = grammar.arena.resolve value

/-- The derivative was made by the rules from others that are known, and without a fault. -/
structure FollowsRules (grammar : Grammar) (key : Derivation) (value : ExprId) : Prop where
  bounded : ∀ lang, grammar.arena.get key.lang ≠ .rep lang .infinite
  derives : ∃ base : Arena, base.Derives grammar.arena
    (grammar.arena.IsNullable grammar.tables.nullability.Trusts)
    (fun id answer => grammar.Knows ⟨id, key.c⟩ answer) key.c key.lang
    (grammar.arena.get key.lang) value

/-- What is known about the derivatives in the table. -/
structure DerivativesFollow (grammar : Grammar) : Prop where
  follows : ∀ {key : Derivation} {value : ExprId},
    grammar.tables.derivatives.settled[key]? = some value → grammar.FollowsRules key value
  ends : ∀ {key : Derivation} {value : ExprId},
    grammar.tables.derivatives.settled[key]? = some value →
      grammar.arena.get value ≠ .nil → grammar.arena.Ends key.lang

theorem DerivativesFollow.of_empty {strategy : Strategy}
    (isEmpty : grammar.tables.derivatives = .empty strategy) : grammar.DerivativesFollow where
  follows := by simp [isEmpty]
  ends := by simp [isEmpty]

section Later

variable (extending : before.arena.Extends after.arena) (wellFormed : before.arena.WellFormed)
  (wellFormed' : after.arena.WellFormed)
  (kept : ∀ {key : Derivation} {value : ExprId}, before.tables.derivatives.settled[key]? = some value →
    after.tables.derivatives.settled[key]? = some value)

include extending wellFormed wellFormed' kept

theorem Knows.later (knows : before.Knows key answer) : after.Knows key answer := by
  obtain ⟨value, settled, same⟩ := knows
  refine ⟨value, kept settled, ?_⟩
  rw [← extending.grows.resolve_resolve wellFormed wellFormed', same,
    extending.grows.resolve_resolve wellFormed wellFormed']

theorem FollowsRules.later (follows : before.FollowsRules key value)
    (truncated : before.tables.nullability.truncated = true →
      after.tables.nullability.truncated = true)
    (inside : key.lang.number < before.arena.size) : after.FollowsRules key value where
  bounded := by
    rw [extending.get wellFormed inside]
    exact follows.bounded
  derives := by
    obtain ⟨base, derives⟩ := follows.derives
    rw [extending.get wellFormed inside]
    have operand_lt : ∀ o ∈ (before.arena.get key.lang).operands, o.number < before.arena.size :=
      fun o member => wellFormed.operand_lt_of_get member
    exact ⟨base, derives.grows extending.grows
      (fun o member => extending.resolve wellFormed (operand_lt o member))
      (fun o member answer isNullable => (isNullable.extends extending wellFormed wellFormed'
        (operand_lt o member)).mono fun _ trusted => trusted.of_later truncated)
      fun _ _ knows => knows.later extending wellFormed wellFormed' kept⟩

end Later

theorem DerivativesFollow.extends (follow : before.DerivativesFollow) (coherent : before.Coherent)
    (wellFormed' : after.arena.WellFormed) (extending : before.arena.Extends after.arena)
    (same : after.tables.derivatives = before.tables.derivatives)
    (truncated : before.tables.nullability.truncated = true →
      after.tables.nullability.truncated = true) : after.DerivativesFollow where
  follows settled := by
    rw [same] at settled
    exact (follow.follows settled).later extending coherent.wellFormed wellFormed'
      (fun settled => same ▸ settled) truncated (coherent.derivatives.settled_lt settled).1
  ends settled isSomething := by
    rw [same] at settled
    obtain ⟨inside, inside'⟩ := coherent.derivatives.settled_lt settled
    rw [extending.get coherent.wellFormed inside'] at isSomething
    exact (follow.ends settled isSomething).extends extending coherent.wellFormed inside

section Finished

variable (finished : (derivation before c faultless).Finished root rootValue results after)
  (coherent : before.Coherent) (follow : before.DerivativesFollow)

include finished coherent follow

/-- Derivatives that were made in one call without a fault. -/
theorem DerivativesFollow.of_finished (noFault : after.fault = none) :
    after.DerivativesFollow where
  follows {key value} settled := by
    have wellFormed := coherent.wellFormed
    have extending : before.arena.Extends after.arena := finished.fromBase
    have lawful : (derivation before c faultless).Lawful := derivation_lawful wellFormed
      fun settled => (coherent.derivatives.settled_lt settled).2
    rcases finished.settled_cases lawful settled with
      old | ⟨arena, wellFormed', fromBase, growing, sameChar, derivable, bounded, derives⟩
    · exact (follow.follows old).later extending wellFormed finished.wellFormed
        (fun settled => (finished.settled_iff _ _).mpr (.inl settled)) finished.later.truncated
        (coherent.derivatives.settled_lt old).1
    · have sameGet := derivable.get_eq wellFormed fromBase finished.fromBase growing
      rw [← sameGet] at derives bounded
      obtain rfl := sameChar
      have operand_lt : ∀ o ∈ (after.arena.get key.lang).operands, o.number < before.arena.size :=
        fun o member => derivable.operand_lt wellFormed fromBase (sameGet ▸ member)
      exact ⟨bounded noFault, before.arena, derives.grows growing
        (fun o member => (extending.resolve wellFormed (operand_lt o member)).trans
          (fromBase.resolve wellFormed (operand_lt o member)).symm)
        (fun o member answer isNullable => isNullable.extends extending wellFormed
          finished.wellFormed (operand_lt o member))
        fun _ _ told => told⟩
  ends {key value} settled isSomething := by
    have wellFormed := coherent.wellFormed
    refine finished.least_le something (fun key => after.arena.Ends key.lang)
      (eq_false fun isSomething => isSomething rfl) wellFormed (.refl _) finished.wellFormed ?_ ?_
      settled ((something_least_iff finished.wellFormed).mpr isSomething)
    · intro key value settled isSomething
      obtain ⟨inside, inside'⟩ := coherent.derivatives.settled_lt settled
      have isSomething := (something_least_iff finished.wellFormed).mp isSomething
      rw [finished.fromBase.get wellFormed inside'] at isSomething
      exact (follow.ends settled isSomething).extends finished.fromBase wellFormed inside
    · intro arena told key value wellFormed' fromBase growing rule values tame below isSomething
      obtain ⟨_, derivable, _, derives⟩ := rule
      have sameGet := derivable.get_eq wellFormed fromBase finished.fromBase growing
      by_cases different : ∀ lang, after.arena.get key.lang ≠ .rep lang (.finite 1)
      · exact .other different
      · obtain ⟨lang, isOnce⟩ := not_forall_not.mp different
        rw [← sameGet, isOnce] at derives
        cases derives with
        | once isTold =>
            have ends : after.arena.Ends (arena.resolve lang) := below _ _ isTold isSomething
            refine .once isOnce (ends.of_get_eq ?_)
            rw [← finished.wellFormed.get_resolve (arena.resolve lang),
              growing.resolve_resolve wellFormed' finished.wellFormed,
              finished.wellFormed.get_resolve]

end Finished

/-! ## Reachable grammars -/

namespace Coherent

variable (coherent : grammar.Coherent)

include coherent

theorem render_tables (inside : id.number < grammar.arena.size) :
    Gives (Grammar.render id) grammar fun _ after =>
      ∃ renderings, after.tables = { grammar.tables with renderings } :=
  ((yields_computeRendering coherent.wellFormed coherent.renderings inside).settle ellipsis).mono
    fun _ _ ⟨⟨renderings, tables, _⟩, _⟩ => ⟨renderings, tables⟩

theorem deriveDefined_follow (follow : grammar.DerivativesFollow)
    (inside : id.number < grammar.arena.size) :
    Gives (Grammar.deriveDefined id c) grammar fun _ after => after.DerivativesFollow := by
  refine (coherent.deriveDefined_cases inside).mono ?_
  rintro result after ⟨value, evaluated, results, finished, isResult⟩
  rcases isResult with ⟨noFault, _, rfl⟩ | ⟨_, _, rfl⟩
  · exact .of_finished finished coherent follow noFault
  · exact .of_empty rfl

end Coherent

theorem Transition.derivativesFollow (transition : before.Transition after)
    (coherent : before.Coherent) (follow : before.DerivativesFollow) : after.DerivativesFollow := by
  have coherent' := (transition.grows coherent).coherent
  cases transition with
  | widen widens =>
      exact follow.extends coherent coherent'.wellFormed widens.extending
        widens.untouched.derivatives widens.nullabilityTruncated
  | render inside =>
      have advances := coherent.render inside
      obtain ⟨_, tables⟩ := coherent.render_tables inside
      exact follow.extends coherent coherent'.wellFormed advances.extending (by rw [tables])
        advances.nullabilityTruncated
  | delta inside =>
      have reduces := coherent.reduces inside
      exact follow.extends coherent coherent'.wellFormed reduces.advances.extending
        reduces.derivatives reduces.advances.nullabilityTruncated
  | derive c inside => exact coherent.deriveDefined_follow follow inside
  | renew _ isEmpty => exact .of_empty (congrArg Tables.derivatives isEmpty)

theorem Reachable.derivativesFollow (reachable : grammar.Reachable) : grammar.DerivativesFollow :=
  reachable.of_transitions (fun coherent transition => transition.derivativesFollow coherent)
    fun _ => .of_empty rfl

end Grammar

end Residual
