import Residual.Proofs.Grammar.Reachable

/-!
# The limit of the passes

Truth values of recursive rules are found in passes, whose number is limited.  Without complements
the limit can only be felt in one direction: strings are lost, but none is added.  And with more
passes than there are expressions the limit is never felt, although a single evaluation may settle
many rules at once that saw different provisional values of each other.
-/

set_option autoImplicit false

namespace Residual

open Interpretation

/-- With more passes than there are slots, every settled value is right. -/
theorem Arena.NullabilitySound.eq_true_iff {arena : Arena} {maxPasses : Nat}
    {table : Memo.Table ExprId Bool} {id : ExprId} {value : Bool}
    (sound : arena.NullabilitySound maxPasses table) (wellFormed : arena.WellFormed)
    (enough : arena.size < maxPasses) (found : table.settled[id]? = some value)
    (free : arena.ComplementFree id) : value = true ↔ [] ∈ words.least arena id := by
  refine ⟨?_, sound.within enough found free⟩
  rintro rfl
  exact sound.nil_mem_least wellFormed found free

namespace Grammar

open Memo

variable {grammar : Grammar} {id : ExprId}

/-! ## Two rules that need each other -/

/-- The grammar of the rules `R = S | ε` and `S = R+`.  The references are the expressions with the
numbers three and four. -/
def mutualRules (config : Config) : Grammar :=
  Prod.snd <| Id.run <| StateT.run (s := ofConfig config) do
    let R ← declare
    let S ← declare
    let _ ← define S (← plus R)
    let _ ← define R (← alt S ExprId.empty)

theorem mutualRules_reachable (config : Config) : (mutualRules config).Reachable := by
  have first : (ofConfig config).Evolves (declare (ofConfig config)).2 := .call .declare .refl nofun
  refine ⟨config, .call (.define ⟨3⟩ (.expr ⟨6⟩)) (.call (.alt (.expr ⟨4⟩) (.expr ⟨1⟩))
    (.call (.define ⟨4⟩ (.expr ⟨5⟩)) (.call (.plus (.expr ⟨3⟩)) (.call .declare first nofun)
      ?_) ?_) ?_) ?_⟩
  · change ∀ id ∈ [(⟨3⟩ : ExprId)], id.number < 5
    decide
  · change ∀ id ∈ [(⟨4⟩ : ExprId), ⟨5⟩], id.number < 6
    decide
  · change ∀ id ∈ [(⟨4⟩ : ExprId), ⟨1⟩], id.number < 6
    decide
  · change ∀ id ∈ [(⟨3⟩ : ExprId), ⟨6⟩], id.number < 7
    decide

theorem mutualRules_inside (config : Config) : 4 < (mutualRules config).arena.size := by
  change 4 < 7
  decide

theorem mutualRules_complementFree (config : Config) :
    (mutualRules config).arena.ComplementFree ⟨4⟩ := by
  change (mutualRules {}).arena.ComplementFree ⟨4⟩
  exact Arena.throughout_of_forall (by decide) (by decide)

theorem mutualRules_defined (config : Config) : (mutualRules config).arena.Defined ⟨4⟩ := by
  change (mutualRules {}).arena.Defined ⟨4⟩
  exact Arena.defined_of_forall (by decide)

/-! ## Enough passes -/

/-- With more passes than there are expressions, nullability is exact without complements, whatever
was asked before.  So are all values that are kept for later, also those of rules that were
evaluated on the way. -/
theorem nullable_iff_nil_mem (reachable : grammar.Reachable)
    (inside : id.number < grammar.arena.size) (free : grammar.arena.ComplementFree id)
    (enough : grammar.arena.size < grammar.config.fixpoint.maxPasses) :
    (∃ lang, grammar.arena.Generates id lang ∧ ((nullable id grammar).1 = true ↔ [] ∈ lang)) ∧
    ∀ other value, (nullable id grammar).2.tables.nullability.get? other = some value →
      grammar.arena.ComplementFree other →
        ∃ lang, grammar.arena.Generates other lang ∧ (value = true ↔ [] ∈ lang) := by
  have coherent := reachable.coherent
  have wellFormed := coherent.wellFormed
  have generates : ∀ {other}, grammar.arena.ComplementFree other →
      grammar.arena.Generates other (words.least grammar.arena other) :=
    fun free => (wellFormed.generates_iff free).mpr rfl
  have gives := (yields_computeNullable wellFormed (.refl _) coherent.nullability inside).settle false
  obtain ⟨⟨nullability, tables, sound, _, _, found⟩, _⟩ := gives
  refine ⟨⟨_, generates free, ?_⟩, fun other value kept free => ⟨_, generates free, ?_⟩⟩
  · rw [← words.least_resolve wellFormed]
    exact sound.eq_true_iff wellFormed enough found (wellFormed.throughout_resolve.mpr free)
  · refine sound.eq_true_iff wellFormed enough ?_ free
    have isTable : (nullable id grammar).2.tables.nullability = nullability :=
      congrArg Tables.nullability tables
    rwa [isTable] at kept

theorem nullable_iff_nil_mem_mutual :
    (∃ lang, (mutualRules {}).arena.Generates ⟨4⟩ lang ∧
      ((nullable ⟨4⟩ (mutualRules {})).1 = true ↔ [] ∈ lang)) ∧
    ∀ other value, (nullable ⟨4⟩ (mutualRules {})).2.tables.nullability.get? other = some value →
      (mutualRules {}).arena.ComplementFree other →
        ∃ lang, (mutualRules {}).arena.Generates other lang ∧ (value = true ↔ [] ∈ lang) :=
  nullable_iff_nil_mem (mutualRules_reachable {}) (mutualRules_inside {})
    (mutualRules_complementFree {}) (by decide)

/-! ## Too few passes -/

/-- Without complements a text is accepted only if it is in the language, and the empty string is
found only if it is, with any number of passes. -/
theorem mem_of_accepts (reachable : grammar.Reachable)
    (inside : id.number < grammar.arena.size) (passes : 1 ≤ grammar.config.simplify.maxPasses)
    (free : grammar.arena.ComplementFree id) (defined : grammar.arena.Defined id) :
    ∃ lang, grammar.arena.Generates id lang ∧
      (∀ text, ∃ accepted, (accepts (.expr id) text grammar).1 = .ok accepted ∧
        (accepted = true → text.toList ∈ lang)) ∧
      ((nullable id grammar).1 = true → [] ∈ lang) := by
  have coherent := reachable.coherent
  refine ⟨_, (coherent.wellFormed.generates_iff free).mpr rfl, fun text => ?_, fun isNullable => ?_⟩
  · have decided := coherent.accepts inside text
    obtain ⟨accepted, answered, _⟩ := decided.answers defined passes
    refine ⟨accepted, answered, ?_⟩
    rintro rfl
    exact decided.accepted passes free answered
  · obtain ⟨_, _, isRight, _⟩ := (coherent.yields_nullable inside).settle false
    exact isRight.bound isNullable free

theorem mem_of_accepts_without_passes : ∃ lang,
    (mutualRules { fixpoint := { maxPasses := 0 } }).arena.Generates ⟨4⟩ lang ∧
      (∀ text, ∃ accepted,
        (accepts (.expr ⟨4⟩) text (mutualRules { fixpoint := { maxPasses := 0 } })).1 =
          .ok accepted ∧ (accepted = true → text.toList ∈ lang)) ∧
      ((nullable ⟨4⟩ (mutualRules { fixpoint := { maxPasses := 0 } })).1 = true → [] ∈ lang) :=
  mem_of_accepts (mutualRules_reachable _) (mutualRules_inside _) (by decide)
    (mutualRules_complementFree _) (mutualRules_defined _)

end Grammar

end Residual
