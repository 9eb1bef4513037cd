import Residual.Proofs.Grammar.Completion
import Residual.Proofs.Grammar.Visits

/-!
# Every question is confined

In every reachable grammar each question answers on all expressions, and what it evaluates on the way is
bounded by the graph below the expressions that it is asked about: no key twice in a pass, no more
passes than are configured, and no keys but those of expressions that can be reached.  Only derivations
leave that graph, for at most one new expression for each option, range and literal in it.

## Main statement

* `questions_confined`: what all questions evaluate, and that all calls come to an end.
-/

set_option autoImplicit false

namespace Residual

open Memo

/-- All of the expressions can be reached from `root`. -/
def Arena.IsBelow (arena : Arena) (root : ExprId) (ids : List ExprId) : Prop :=
  ∀ id ∈ ids, arena.Reaches root id

namespace Grammar

section Evaluations

variable {Key Value : Type} [BEq Key] [Hashable Key]

/-- The evaluation answers.  For that it makes at most `limit` passes, each of which visits keys as
`Allowed`, unless the value of `root` was known before. -/
def Confined (evaluation : Eval Grammar Value) (function : Recursion Grammar Key Value) (root : Key)
    (limit : Nat) (Allowed : List Key → Prop) (grammar : Grammar) : Prop :=
  evaluation.Yields grammar fun _ after => function.Visits root limit Allowed grammar after

variable [LawfulBEq Key] [BEq Value] {function : Recursion Grammar Key Value}
  {May : List Key → Key → Prop} {Within : Grammar → Prop} {Ready : Grammar → Key → Prop}
  {Fresh : Value → Prop} {Allowed : List Key → Prop} {evaluation : Eval Grammar Value}
  {post : Value → Grammar → Prop} {grammar : Grammar} {root : Key} {fuel limit : Nat}

theorem confined_of_tours (tours : function.Tours May Within Ready Fresh)
    (yields : evaluation.Yields grammar post)
    (isEvaluation : evaluation grammar = function.solve fuel root grammar)
    (ready : ∀ {state}, Within state → Ready state root) (may : May [] root)
    (within : Within grammar) (idle : ∀ key : Key, (function.table grammar).pending[key]? = none)
    (limited : (function.table grammar).strategy.repetitions + 1 ≤ limit)
    (allowed : ∀ keys, keys.Nodup → Trail May keys → Allowed keys) :
    Confined evaluation function root limit Allowed grammar := by
  have visits := (tours.ensures_solve ready may within idle fuel).of_eq isEvaluation
  refine (yields.and_ensures visits).mono ?_
  exact fun _ _ ⟨_, visits⟩ => visits.mono limited allowed

/-- An analysis visits what is closed under the questions of its equations. -/
theorem confined_analysis {table : Tables → Table Key Value}
    {modifyTable : (Table Key Value → Table Key Value) → Tables → Tables}
    {equation : Arena → Key → Reading Key Value Value} (isField : Tables.IsField table modifyTable)
    (bottom : Value) (Reached : Key → Prop)
    (asks : ∀ key, Reached key → (equation grammar.arena key).Asks Reached)
    (yields : evaluation.Yields grammar post)
    (isEvaluation : evaluation grammar =
      (analysis table modifyTable bottom equation).solve fuel root grammar)
    (reached : Reached root) (idle : ∀ key : Key, (table grammar.tables).pending[key]? = none)
    (limited : (table grammar.tables).strategy.repetitions + 1 ≤ limit) :
    Confined evaluation (analysis table modifyTable bottom equation) root limit
      (fun keys => ∀ key ∈ keys, Reached key) grammar := by
  apply confined_of_tours (tours_analysis isField bottom asks) yields isEvaluation (fun _ => reached)
    reached rfl idle limited
  exact fun _ _ trail => trail.forall_mem fun _ _ reached => reached

end Evaluations

variable {grammar : Grammar} {id x y : ExprId}

/-- The number of passes that a question about truth values may take. -/
def passLimit (grammar : Grammar) : Nat :=
  max 1 grammar.config.fixpoint.maxPasses

/-- Nullabilities and equalities are iterated, and everything else takes one pass. -/
theorem isStrategic_iff : grammar.IsStrategic ↔
    grammar.tables.nullability.strategy = .iterate grammar.config.fixpoint.maxPasses ∧
    grammar.tables.heights.strategy = .singlePass ∧
    grammar.tables.equalities.strategy = .iterate grammar.config.fixpoint.maxPasses ∧
    grammar.tables.renderings.strategy = .singlePass ∧
    grammar.tables.derivatives.strategy = .singlePass ∧
    grammar.tables.deltas.strategy = .singlePass ∧
    grammar.tables.simplified.strategy = .singlePass := by
  simp [IsStrategic, Tables.strategies, Tables.empty, Table.empty]

theorem repetitions_singlePass {Key Value : Type} [BEq Key] [Hashable Key] {table : Table Key Value}
    (strategy : table.strategy = .singlePass) : table.strategy.repetitions + 1 ≤ 1 := by
  rw [strategy]
  rfl

theorem repetitions_iterate {Key Value : Type} [BEq Key] [Hashable Key] {table : Table Key Value}
    (strategy : table.strategy = .iterate grammar.config.fixpoint.maxPasses) :
    table.strategy.repetitions + 1 ≤ grammar.passLimit := by
  rw [strategy, Strategy.repetitions, passLimit]
  omega

section Questions

variable (coherent : grammar.Coherent) (strategic : grammar.IsStrategic)
  (inside : id.number < grammar.arena.size)

include coherent strategic

section

include inside

theorem confined_nullable : Confined (computeNullable id) nullability (grammar.resolve id)
    grammar.passLimit (grammar.arena.IsBelow id) grammar := by
  obtain ⟨strategy, -⟩ := isStrategic_iff.mp strategic
  refine confined_analysis nullability_isField false (grammar.arena.Reaches id) (fun key reaches => ?_)
    (coherent.yields_nullable inside) rfl .refl coherent.nullability.idle
    (repetitions_iterate strategy)
  exact (Arena.nullabilityEquation_asks coherent.wellFormed).mono fun _ asked =>
    reaches.tail asked.1.2

theorem confined_height : Confined (computeHeight id) heights (grammar.resolve id) 1
    (grammar.arena.IsBelow id) grammar := by
  obtain ⟨-, strategy, -⟩ := isStrategic_iff.mp strategic
  refine confined_analysis heights_isField 0 (grammar.arena.Reaches id) (fun key reaches => ?_)
    (yields_computeHeight coherent.wellFormed coherent.heights inside) rfl .refl coherent.heights
    (repetitions_singlePass strategy)
  exact (grammar.arena.heightEquation_asks key).mono fun _ child => reaches.tail child

theorem confined_render : Confined (computeRendering id) renderings (grammar.resolve id) 1
    (grammar.arena.IsBelow id) grammar := by
  obtain ⟨-, -, -, strategy, -⟩ := isStrategic_iff.mp strategic
  refine confined_analysis renderings_isField ellipsis (grammar.arena.Reaches id)
    (fun key reaches => ?_)
    (yields_computeRendering coherent.wellFormed coherent.renderings inside) rfl .refl
    coherent.renderings (repetitions_singlePass strategy)
  exact (grammar.arena.renderingEquation_asks key).mono fun _ child => reaches.tail child

omit strategic in
theorem confined_delta : Confined (computeDelta id) deltas (grammar.resolve id) 1
    (grammar.arena.IsBelow id) grammar := by
  apply confined_of_tours (tours_deltas coherent.wellFormed inside)
    (coherent.yields_computeDelta inside) rfl (fun _ => .refl) .refl (.refl _) coherent.deltas.idle
    (repetitions_singlePass coherent.deltas.singlePass)
  exact fun _ _ trail => trail.forall_mem fun _ _ reaches => reaches

omit strategic in
theorem confined_simplify : Confined (computeSimplified id) simplifications (grammar.resolve id) 1
    (grammar.arena.IsBelow id) grammar := by
  have yields := yields_computeSimplified coherent.simplificationSide
    coherent.simplified.toSimplifiedKept inside
  apply confined_of_tours (tours_simplifications coherent.wellFormed inside) yields rfl
    (fun _ => .refl) .refl (.refl _) coherent.simplified.idle
    (repetitions_singlePass coherent.simplified.singlePass)
  exact fun _ _ trail => trail.forall_mem fun _ _ reaches => reaches

omit strategic in
theorem confined_derivative (c : Char) : Confined (computeDerivative id c) derivatives
    ⟨grammar.resolve id, c⟩ 1 (grammar.arena.DerivesWithin id c) grammar := by
  have side : DerivationSide grammar (grammar.arena.Faultless id) grammar :=
    ⟨coherent.wellFormed, coherent.nullability, fun _ => coherent.fault, by simp [coherent.fault]⟩
  have yields := yields_computeDerivative (c := c) side coherent.derivatives.toDerivativesKept
    inside fun faultless => faultless
  apply confined_of_tours (tours_derivatives coherent.wellFormed inside c) yields rfl
    (fun _ => ⟨rfl, .reached .refl⟩) ⟨rfl, .inl .refl⟩ (.refl _) coherent.derivatives.idle
    (repetitions_singlePass coherent.derivatives.singlePass)
  exact fun _ nodup trail => Arena.derivesWithin_of_trail coherent.wellFormed inside trail nodup

end

theorem confined_equal (inside : x.number < grammar.arena.size)
    (inside' : y.number < grammar.arena.size) : Confined (computeEqual x y) equalities
      (Arena.unorderedPair (grammar.resolve x) (grammar.resolve y)) grammar.passLimit
      (fun pairs => ∀ pair ∈ pairs, grammar.arena.ReachesPair x y pair) grammar := by
  obtain ⟨-, -, strategy, -⟩ := isStrategic_iff.mp strategic
  refine confined_analysis equalities_isField true (grammar.arena.ReachesPair x y)
    (fun pair reaches => ?_)
    (yields_computeEqual coherent.wellFormed coherent.equalities inside inside') rfl
    (Arena.reachesPair_unorderedPair .refl .refl) coherent.equalities.idle
    (repetitions_iterate strategy)
  exact (Arena.equalityEquation_asks coherent.wellFormed pair).mono fun _ asked =>
    reaches.child asked.1.2

end Questions

/-- On all expressions of a reachable grammar, whatever cycles lead through, every question answers.
Each of its passes evaluates no key twice, and only keys that were not known.  A derivative takes one
pass over expressions that can be reached, the empty string, the empty language and one new expression
at most for each option, range and literal.  Simplified forms, heights, renderings and deltas take one
pass over expressions that can be reached, nullabilities as many passes as are configured, and
equalities as many over pairs.  So every call comes to an end, and every text is consumed. -/
theorem questions_confined (reachable : grammar.Reachable) :
    (∀ {id : ExprId}, id.number < grammar.arena.size →
      (∀ c, Confined (computeDerivative id c) derivatives ⟨grammar.resolve id, c⟩ 1
        (grammar.arena.DerivesWithin id c) grammar) ∧
      Confined (computeSimplified id) simplifications (grammar.resolve id) 1
        (grammar.arena.IsBelow id) grammar ∧
      Confined (computeHeight id) heights (grammar.resolve id) 1
        (grammar.arena.IsBelow id) grammar ∧
      Confined (computeRendering id) renderings (grammar.resolve id) 1
        (grammar.arena.IsBelow id) grammar ∧
      Confined (computeDelta id) deltas (grammar.resolve id) 1
        (grammar.arena.IsBelow id) grammar ∧
      Confined (computeNullable id) nullability (grammar.resolve id) grammar.passLimit
        (grammar.arena.IsBelow id) grammar) ∧
    (∀ {x y : ExprId}, x.number < grammar.arena.size → y.number < grammar.arena.size →
      Confined (computeEqual x y) equalities
        (Arena.unorderedPair (grammar.resolve x) (grammar.resolve y)) grammar.passLimit
        (fun pairs => ∀ pair ∈ pairs, grammar.arena.ReachesPair x y pair) grammar) ∧
    (∀ call : Call, (∀ id ∈ call.ids, id.number < grammar.arena.size) →
      Completes call.evaluate call.run grammar) ∧
    ∀ lang text, (∀ id ∈ lang.ids, id.number < grammar.arena.size) →
      Completes (Strict.accepts lang text) (accepts lang text) grammar := by
  have coherent := reachable.coherent
  have strategic := reachable.isStrategic
  refine ⟨fun inside => ⟨?_, ?_, ?_, ?_, ?_, ?_⟩, ?_, ?_, ?_⟩
  · exact confined_derivative coherent inside
  · exact confined_simplify coherent inside
  · exact confined_height coherent strategic inside
  · exact confined_render coherent strategic inside
  · exact confined_delta coherent inside
  · exact confined_nullable coherent strategic inside
  · exact confined_equal coherent strategic
  · exact coherent.completes_run
  · exact coherent.completes_accepts

/-- The grammar of the rule `X = (¬X)?`.  Its reference is the expression with the number three. -/
def optionOfComplement : Grammar :=
  (recursive (fun link => do opt (.expr (← Grammar.not (.expr link)))) (ofConfig {})).2

theorem optionOfComplement_reachable : optionOfComplement.Reachable := by
  refine ⟨{}, .call (.tie ⟨3⟩ ⟨5⟩) (.call (.opt (.expr ⟨4⟩)) (.call (.not (.expr ⟨3⟩))
    (.call .declare .refl ?_) ?_) ?_) ?_⟩
  · exact nofun
  · decide
  · decide
  · decide

theorem questions_confined_optionOfComplement :
    optionOfComplement.Reachable ∧
    (∀ c, Confined (computeDerivative ⟨3⟩ c) derivatives ⟨⟨5⟩, c⟩ 1
      (optionOfComplement.arena.DerivesWithin ⟨3⟩ c) optionOfComplement) ∧
    Confined (computeSimplified ⟨3⟩) simplifications ⟨5⟩ 1
      (optionOfComplement.arena.IsBelow ⟨3⟩) optionOfComplement ∧
    Confined (computeNullable ⟨3⟩) nullability ⟨5⟩ optionOfComplement.passLimit
      (optionOfComplement.arena.IsBelow ⟨3⟩) optionOfComplement ∧
    ∀ text, Completes (Strict.accepts (.expr ⟨3⟩) text) (accepts (.expr ⟨3⟩) text)
      optionOfComplement := by
  have inside : (⟨3⟩ : ExprId).number < optionOfComplement.arena.size := by decide
  obtain ⟨questions, -, -, decides⟩ := questions_confined optionOfComplement_reachable
  obtain ⟨derivative, simplified, -, -, -, nullable⟩ := questions inside
  refine ⟨optionOfComplement_reachable, derivative, simplified, nullable, fun text => ?_⟩
  exact decides (.expr ⟨3⟩) text fun _ member => List.mem_singleton.mp member ▸ inside

end Grammar

end Residual
