import Residual.Proofs.Grammar.Reachable

/-!
# Membership is always decided

Nothing but a repetition without a count keeps a defined expression from being derived.  One
simplification takes all of them out of the graph of its result, cycles included, and neither
derivatives nor further simplifications bring one back.  So every text is accepted or rejected.
-/

set_option autoImplicit false

namespace Residual

/-- No repetition without a count can be reached. -/
def Arena.Finitary (arena : Arena) (root : ExprId) : Prop :=
  arena.Throughout root (· ≠ .rep () .infinite)

namespace Grammar

open Memo

variable {grammar before after : Grammar} {id value : ExprId}

/-- The expression is what simplifications and derivatives made of another one, the first of them a
simplification.  Anything may be called in between, but references are defined only once the
expression does not need them. -/
inductive Descends (before : Grammar) (id : ExprId) : Grammar → ExprId → Prop where
  | simplified : Descends before id (simplify id before).2 (simplify id before).1
  | canonical : Descends before id (canonicalize id before).2 (canonicalize id before).1
  | simplify {after : Grammar} {value : ExprId} : Descends before id after value →
      Descends before id (simplify value after).2 (simplify value after).1
  | canonicalize {after : Grammar} {value : ExprId} : Descends before id after value →
      Descends before id (canonicalize value after).2 (canonicalize value after).1
  | derive {after : Grammar} {value rest : ExprId} {c : Char} : Descends before id after value →
      (derivative value c after).1 = .ok rest → Descends before id (derivative value c after).2 rest
  | call {after : Grammar} {value : ExprId} (call : Call) : Descends before id after value →
      (∀ id ∈ call.ids, id.number < after.arena.size) →
      (call.defines = true → after.arena.Defined value) →
      Descends before id (call.run after).2 value

/-- The operators of what an expression reaches stay the same in later grammars, if it is defined or
no references are. -/
theorem Coherent.counted_run (coherent : grammar.Coherent) (call : Call)
    (given : ∀ id ∈ call.ids, id.number < grammar.arena.size)
    (settled : call.defines = true → grammar.arena.Defined id)
    (inside : id.number < grammar.arena.size) (counted : grammar.arena.Counted id) :
    (call.run grammar).2.arena.Counted id := by
  have grows := coherent.grows_run call given
  cases defines : call.defines with
  | true =>
      exact grows.arena.throughout_of_defined coherent.wellFormed grows.coherent.wellFormed inside
        (settled defines) counted
  | false =>
      exact ((coherent.extends_run call given defines).throughout_iff coherent.wellFormed
        grows.coherent.wellFormed inside ⟨nofun, nofun⟩).mpr counted

/-- Everything that descends from an expression can be derived. -/
theorem Descends.counted (descends : before.Descends id after value) (coherent : before.Coherent)
    (inside : id.number < before.arena.size) (passes : 0 < before.config.simplify.maxPasses) :
    before.Grows after ∧ value.number < after.arena.size ∧ after.arena.Counted value := by
  induction descends with
  | simplified =>
      obtain ⟨normalizes, counted⟩ := coherent.simplify inside
      exact ⟨normalizes.advances.grows, normalizes.inside, counted⟩
  | canonical =>
      obtain ⟨normalizes, counted⟩ := coherent.canonicalize inside
      exact ⟨normalizes.advances.grows, normalizes.inside, counted (.inl passes)⟩
  | simplify _ inductionHypothesis =>
      obtain ⟨grows, inside, _⟩ := inductionHypothesis
      obtain ⟨normalizes, counted⟩ := grows.coherent.simplify inside
      exact ⟨grows.trans normalizes.advances.grows, normalizes.inside, counted⟩
  | canonicalize _ inductionHypothesis =>
      obtain ⟨grows, inside, isCounted⟩ := inductionHypothesis
      obtain ⟨normalizes, counted⟩ := grows.coherent.canonicalize inside
      exact ⟨grows.trans normalizes.advances.grows, normalizes.inside, counted (.inr isCounted)⟩
  | @derive after value rest c _ answered inductionHypothesis =>
      obtain ⟨grows, inside, isCounted⟩ := inductionHypothesis
      have coherent := grows.coherent
      have derives : after.Derives value c _ _ := coherent.derives_of_ok inside _ answered
      obtain ⟨inside', isDerivative⟩ := derives.isDerivative answered
      have counted := derives.advances.counted coherent inside isCounted
      exact ⟨grows.trans derives.advances.grows, inside',
        isDerivative.counted _ (.refl _) derives.advances.coherent.wellFormed counted⟩
  | call call _ given settled inductionHypothesis =>
      obtain ⟨grows, inside, isCounted⟩ := inductionHypothesis
      have grows' := grows.coherent.grows_run call given
      exact ⟨grows.trans grows', grows'.arena.lt_size inside,
        grows.coherent.counted_run call given settled inside isCounted⟩

/-- With at least one pass of simplification, membership is decided for every defined expression and
every text.  After one simplification no repetition without a count can be reached, ever again, so
that all derivatives exist. -/
theorem accepts_eq_ok (reachable : grammar.Reachable) (inside : id.number < grammar.arena.size)
    (passes : 1 ≤ grammar.config.simplify.maxPasses) :
    (grammar.arena.Defined id → ∀ text, ∃ accepted,
      (accepts (.expr id) text grammar).1 = .ok accepted) ∧
    ∀ {after value}, grammar.Descends id after value → after.arena.Finitary value ∧
      (after.arena.Defined value → ∀ c, ∃ rest, (derivative value c after).1 = .ok rest) := by
  have coherent := reachable.coherent
  refine ⟨fun defined text => ?_, fun {after value} descends => ?_⟩
  · have decided := coherent.accepts inside text
    obtain ⟨accepted, answered, _⟩ := decided.answers defined passes
    exact ⟨accepted, answered⟩
  · obtain ⟨grows, inside, counted⟩ := descends.counted coherent inside passes
    refine ⟨fun n reaches => (counted n reaches).2, fun defined c => ?_⟩
    obtain ⟨_, derives⟩ := grows.coherent.derivative inside (c := c)
    exact (derives defined).answers counted

/-- The grammar of the rule `X = ¬X{∞}`.  Its reference is the expression with the number three. -/
def complementOfRepetition : Grammar :=
  (recursive (fun link => do Grammar.not (.expr (← rep (.expr link) .infinite))) (ofConfig {})).2

theorem complementOfRepetition_reachable : complementOfRepetition.Reachable := by
  refine ⟨{}, .call (.tie ⟨3⟩ ⟨5⟩) (.call (.not (.expr ⟨4⟩)) (.call (.rep (.expr ⟨3⟩) .infinite)
    (.call .declare .refl ?_) ?_) ?_) ?_⟩
  · exact nofun
  · decide
  · decide
  · decide

theorem accepts_eq_ok_complement :
    complementOfRepetition.Reachable ∧ complementOfRepetition.arena.Defined ⟨3⟩ ∧
    (∀ text, ∃ accepted, (accepts (.expr ⟨3⟩) text complementOfRepetition).1 = .ok accepted) ∧
    ∀ {after value}, complementOfRepetition.Descends ⟨3⟩ after value →
      after.arena.Finitary value ∧
        (after.arena.Defined value → ∀ c, ∃ rest, (derivative value c after).1 = .ok rest) := by
  have defined : complementOfRepetition.arena.Defined ⟨3⟩ := Arena.defined_of_forall (by decide)
  have inside : (⟨3⟩ : ExprId).number < complementOfRepetition.arena.size := by decide
  obtain ⟨answers, descendants⟩ :=
    accepts_eq_ok complementOfRepetition_reachable inside (by decide)
  exact ⟨complementOfRepetition_reachable, defined, answers defined, descendants⟩

end Grammar

end Residual
