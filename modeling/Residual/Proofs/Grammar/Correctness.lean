import Residual.Proofs.Grammar.Reachable

/-!
# Correctness of the operations

What the operations of a grammar answer in every state that calls can lead to: membership is
decided, normal forms keep the language, and derivatives are left quotients.

Expressions without cycles have their language by structural recursion, complements included.
Expressions with cycles have the least solution of their equations, without complements and as long
as no table of truth values ran out of passes.
-/

set_option autoImplicit false

namespace Residual.Grammar

open Memo

variable {grammar later : Grammar} {id : ExprId} {c : Char}

/-! ## Two small grammars -/

/-- The grammar of `¬a`, which is the expression with the number four. -/
def complementOfChar : Grammar :=
  (Grammar.not (.char 'a') (ofConfig {})).2

theorem complementOfChar_reachable : complementOfChar.Reachable :=
  ⟨{}, .call (.not (.char 'a')) .refl nofun⟩

theorem complementOfChar_acyclic : complementOfChar.arena.Acyclic ⟨4⟩ := by
  refine complementOfChar_reachable.coherent.wellFormed.acyclic_of_denotes
    (.intro (fun _ => {['a']}) fun operand member => ?_)
  obtain rfl : operand = ⟨3⟩ := List.mem_singleton.mp member
  exact .intro (fun _ => 0) nofun

/-- The grammar of the rule `X = X{0}`, which contains itself.  Its reference is the expression
with the number three. -/
def selfRepetition : Grammar :=
  (recursive (fun link => rep (.expr link) (.finite 0))
    (ofConfig { simplify := { maxPasses := 1, eachStep := true } })).2

theorem selfRepetition_reachable : selfRepetition.Reachable := by
  refine ⟨_, .call (.tie ⟨3⟩ ⟨4⟩) (.call (.rep (.expr ⟨3⟩) (.finite 0))
    (.call .declare .refl ?_) ?_) ?_⟩
  · exact nofun
  · decide
  · decide

theorem selfRepetition_inside : (⟨3⟩ : ExprId).number < selfRepetition.arena.size := by
  decide

theorem selfRepetition_complementFree : selfRepetition.arena.ComplementFree ⟨3⟩ :=
  Arena.throughout_of_forall (by decide) (by decide)

theorem selfRepetition_cyclic : ¬ selfRepetition.arena.Acyclic ⟨3⟩ := by
  intro acyclic
  refine acyclic ⟨4⟩ .refl (.single ?_)
  exact Arena.mem_operands_iff.mpr ⟨⟨3⟩, List.mem_singleton.mpr rfl, rfl⟩

theorem simplify_selfRepetition : Gives (simplify ⟨3⟩) selfRepetition fun value after =>
    value = ExprId.empty ∧ selfRepetition.Advances after ∧ after.Complete := by
  have coherent := selfRepetition_reachable.coherent
  obtain ⟨isEmpty, complete⟩ :=
    coherent.simplify_never selfRepetition_inside rfl (Table.settled_empty _ _)
  exact ⟨isEmpty, (coherent.simplify selfRepetition_inside).1.advances, complete ⟨rfl, rfl⟩⟩

/-- Membership is decided for every expression without cycles and undefined references. -/
theorem accepts_iff_denotes (reachable : grammar.Reachable)
    (inside : id.number < grammar.arena.size) (passes : 1 ≤ grammar.config.simplify.maxPasses)
    (acyclic : grammar.arena.Acyclic id) (defined : grammar.arena.Defined id) (text : String) :
    ∃ lang, grammar.arena.Denotes id lang ∧
      ∃ accepted, (accepts (.expr id) text grammar).1 = .ok accepted ∧
        (accepted = true ↔ text.toList ∈ lang) := by
  have coherent := reachable.coherent
  obtain ⟨lang, denotes⟩ := coherent.wellFormed.exists_denotes acyclic
  obtain ⟨_, decides⟩ := coherent.accepts inside text
  obtain ⟨accepted, answered, isRight⟩ := decides defined passes
  exact ⟨lang, denotes, accepted, answered, isRight .structural ⟨nofun, nofun⟩ lang denotes⟩

theorem accepts_iff_denotes_complement : complementOfChar.Reachable ∧
    ∃ lang, complementOfChar.arena.Denotes ⟨4⟩ lang ∧
      ∃ accepted, (accepts (.expr ⟨4⟩) "b" complementOfChar).1 = .ok accepted ∧
        (accepted = true ↔ ['b'] ∈ lang) :=
  ⟨complementOfChar_reachable, accepts_iff_denotes complementOfChar_reachable (by decide)
    (by decide) complementOfChar_acyclic (Arena.defined_of_forall (by decide)) "b"⟩

/-- A simplified or canonical form has the language of the original, also if references are defined
only later.  References that are still undefined then count as `∅`. -/
theorem speaks_normalForm (reachable : grammar.Reachable)
    (inside : id.number < grammar.arena.size) {normalize : ExprId → StateM Grammar ExprId}
    (normalizes : normalize = simplify ∨ normalize = canonicalize)
    (complete : (normalize id grammar).2.tables.equalities.truncated = false)
    (evolves : (normalize id grammar).2.Evolves later)
    (kind : later.arena.Acyclic id ∨ later.arena.ComplementFree id) :
    ∃ lang, later.arena.Speaks id lang ∧ later.arena.Speaks (normalize id grammar).1 lang := by
  have normalized : grammar.Normalizes id (normalize id grammar).1 (normalize id grammar).2 := by
    rcases normalizes with rfl | rfl
    · exact (reachable.coherent.simplify inside).1
    · exact (reachable.coherent.canonicalize inside).1
  obtain ⟨coherent, _, growing⟩ := normalized.advances.coherent.evolves evolves
  obtain ⟨sense, lang, means⟩ := coherent.wellFormed.exists_means kind
  have means' := normalized.keeps later.arena growing coherent.wellFormed sense (fun _ => complete)
    lang means
  exact ⟨lang, coherent.wellFormed.speaks_of_means means, coherent.wellFormed.speaks_of_means means'⟩

theorem speaks_normalForm_recursive : ¬ selfRepetition.arena.Acyclic ⟨3⟩ ∧
    ∃ lang, (simplify ⟨3⟩ selfRepetition).2.arena.Speaks ⟨3⟩ lang ∧
      (simplify ⟨3⟩ selfRepetition).2.arena.Speaks (simplify ⟨3⟩ selfRepetition).1 lang := by
  obtain ⟨_, advances, complete⟩ := simplify_selfRepetition
  have free : (simplify ⟨3⟩ selfRepetition).2.arena.ComplementFree ⟨3⟩ :=
    (advances.extending.throughout_iff selfRepetition_reachable.coherent.wellFormed
      advances.coherent.wellFormed selfRepetition_inside nofun).mpr selfRepetition_complementFree
  exact ⟨selfRepetition_cyclic, speaks_normalForm selfRepetition_reachable selfRepetition_inside
    (.inl rfl) complete.equalities .refl (.inr free)⟩

/-! ## Derivatives -/

/-- The derivative of an expression whose repetitions have counts has the strings that the
character can be followed by, on left recursive rules too. -/
theorem derivative_speaks_quotient (reachable : grammar.Reachable)
    (inside : id.number < grammar.arena.size) (defined : grammar.arena.Defined id)
    (counted : grammar.arena.Counted id)
    (kind : grammar.arena.Acyclic id ∨ grammar.arena.ComplementFree id ∧
      (derivative id c grammar).2.tables.nullability.truncated = false) :
    ∃ d lang rest, (derivative id c grammar).1 = .ok d ∧ grammar.arena.Speaks id lang ∧
      (derivative id c grammar).2.arena.Speaks d rest ∧
        ∀ word, word ∈ rest ↔ c :: word ∈ lang := by
  have coherent := reachable.coherent
  have wellFormed := coherent.wellFormed
  obtain ⟨advances, derives⟩ := coherent.derivative inside (c := c)
  have wellFormed' := advances.coherent.wellFormed
  obtain ⟨d, answered⟩ := (derives defined).answers counted
  obtain ⟨_, isDerivative⟩ := (derives defined).isDerivative answered
  obtain ⟨sense, trusted, lang, means⟩ : ∃ sense,
      (derivative id c grammar).2.tables.nullability.Trusts sense ∧
        ∃ lang, grammar.arena.Means sense id lang := by
    rcases kind with acyclic | ⟨free, complete⟩
    · exact ⟨.structural, nofun, wellFormed.exists_denotes acyclic⟩
    · exact ⟨.least, fun _ => complete, _, free, rfl⟩
  have means' := isDerivative.means (advances.counted coherent inside counted) sense trusted lang
    ((advances.extending.means_iff wellFormed wellFormed' inside).mpr means)
  exact ⟨d, lang, _, answered, wellFormed.speaks_of_means means, wellFormed'.speaks_of_means means',
    fun _ => Languages.mem_quotient⟩

theorem derivative_speaks_quotient_complement : ∃ d lang rest,
    (derivative ⟨4⟩ 'a' complementOfChar).1 = .ok d ∧ complementOfChar.arena.Speaks ⟨4⟩ lang ∧
      (derivative ⟨4⟩ 'a' complementOfChar).2.arena.Speaks d rest ∧
        ∀ word, word ∈ rest ↔ 'a' :: word ∈ lang :=
  derivative_speaks_quotient complementOfChar_reachable (by decide)
    (Arena.defined_of_forall (by decide)) (Arena.throughout_of_forall (by decide) (by decide))
    (.inl complementOfChar_acyclic)

end Residual.Grammar
