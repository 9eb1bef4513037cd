import Residual.Proofs.Grammar.Transformation.Evaluation

/-!
# Results of a transformation

What can be said about the settled values that an outermost call leaves behind: each was there
before, or the rule made it from answers that lead to settled values.
-/

set_option autoImplicit false

namespace Residual.Grammar.Scheme

open Memo

variable {Key : Type} [BEq Key] [Hashable Key] {scheme : Scheme Key} {root key : Key}
  {rootValue value answer : ExprId} {after : Grammar} {results : List (Result Key)}

/-- The answer stands for the settled value of the key. -/
def SettledAs (scheme : Scheme Key) (after : Grammar) (key : Key) (answer : ExprId) : Prop :=
  ∃ value, (scheme.table after.tables).settled[key]? = some value ∧
    after.arena.resolve answer = after.arena.resolve value

namespace Finished

variable (finished : scheme.Finished root rootValue results after)

include finished

theorem settledAs_of_told {earlier : List (Result Key)}
    (members : ∀ result ∈ earlier, result ∈ results)
    (told : Told (fun key value => (scheme.table scheme.base.tables).settled[key]? = some value)
      (fun key link => scheme.Circular after.arena key ∧
        ∃ result ∈ results, result.key = key ∧ result.link = link) earlier key answer) :
    scheme.SettledAs after key answer := by
  rcases told with settled | ⟨_, result, member, rfl, rfl⟩ | ⟨result, member, rfl, rfl⟩
  · exact ⟨answer, (finished.settled_iff key answer).mpr (.inl settled), rfl⟩
  · exact ⟨result.value, (finished.settled_iff _ _).mpr (.inr ⟨result, member, rfl, rfl⟩),
      finished.bound.resolve result member⟩
  · exact ⟨result.value,
      (finished.settled_iff _ _).mpr (.inr ⟨result, members result member, rfl, rfl⟩), rfl⟩

/-- A settled value was there before, or it was made by the rule. -/
theorem settled_cases (lawful : scheme.Lawful)
    (settled : (scheme.table after.tables).settled[key]? = some value) :
    (scheme.table scheme.base.tables).settled[key]? = some value ∨
      ∃ arena : Arena, arena.WellFormed ∧ scheme.base.arena.Extends arena ∧
        arena.Grows after.arena ∧ scheme.Rule after arena (scheme.SettledAs after) key value := by
  rcases (finished.settled_iff key value).mp settled with old | ⟨result, member, rfl, rfl⟩
  · exact .inl old
  · obtain ⟨arena, earlier, wellFormed, extending, growing, members, rule⟩ :=
      finished.history.exists_rule member
    refine .inr ⟨arena, wellFormed, extending, growing, ?_⟩
    exact lawful.rule_mono (lawful.later_refl after)
      (fun key answer told => finished.settledAs_of_told members told) rule

theorem settled_lt (lawful : scheme.Lawful)
    (settled : (scheme.table after.tables).settled[key]? = some value) :
    value.number < after.arena.size := by
  rcases (finished.settled_iff key value).mp settled with old | ⟨result, member, rfl, rfl⟩
  · exact finished.fromBase.grows.lt_size (lawful.settled_lt old)
  · exact finished.value_lt result member

/-- If the rule keeps values below the bounds of their keys, then so does the transformation. -/
theorem least_le {Meaning : Type} [CompleteLattice Meaning]
    (interpretation : Interpretation Meaning) (bound : Key → Meaning)
    (nothing : interpretation.apply .nil = ⊥) (wellFormed : scheme.base.arena.WellFormed)
    {later : Arena} (growing : after.arena.Grows later) (wellFormed' : later.WellFormed)
    (settledBound : ∀ key value, (scheme.table scheme.base.tables).settled[key]? = some value →
      interpretation.least later value ≤ bound key)
    (keeps : ∀ {arena told key value}, arena.WellFormed → scheme.base.arena.Extends arena →
      arena.Grows later → scheme.Rule after arena told key value →
      ∀ values, interpretation.Tame scheme.base.arena arena later values →
      (∀ key answer, told key answer → values answer ≤ bound key) → values value ≤ bound key)
    (settled : (scheme.table after.tables).settled[key]? = some value) :
    interpretation.least later value ≤ bound key := by
  rcases (finished.settled_iff key value).mp settled with old | ⟨result, member, rfl, rfl⟩
  · exact settledBound key value old
  · exact interpretation.least_le_of_history bound nothing wellFormed wellFormed' finished.history
      growing (finished.bound.grows growing finished.wellFormed wellFormed') settledBound
      (fun key link linked => linked.2) keeps result member

end Finished

end Residual.Grammar.Scheme
