import Residual.Grammar.Membership
import Residual.Proofs.Arena.Search
import Residual.Proofs.Grammar.Construction
import Residual.Proofs.Grammar.Derivative.Unfolding

/-!
# Asking for derivatives

An expression whose repetitions have counts has a derivative, which is defined if the expression
is.  A fault leaves nothing behind: the derivatives made so far are forgotten with it.
-/

set_option autoImplicit false

namespace Residual.Grammar

open Memo

variable {grammar before after : Grammar} {id value : ExprId} {c : Char}

/-- The grammar advances, and a derivative is the answer if no infinite repetition is derived, such
as where repetitions have counts. -/
structure Derives (before : Grammar) (id : ExprId) (c : Char)
    (result : Except Error ExprId) (after : Grammar) : Prop where
  advances : before.Advances after
  faultless : before.arena.Faultless id → ∃ value, result = .ok value
  answers : before.arena.Counted id → ∃ value, result = .ok value
  isDerivative : ∀ {value}, result = .ok value → value.number < after.arena.size ∧
    after.arena.IsDerivative after.tables.nullability.Trusts id c value

/-- The derivative of a defined expression is defined if repetitions have counts. -/
theorem Derives.defined {result : Except Error ExprId} (derives : before.Derives id c result after)
    (coherent : before.Coherent) (inside : id.number < before.arena.size)
    (counted : before.arena.Counted id) (defined : before.arena.Defined id)
    (isResult : result = .ok value) : after.arena.Defined value := by
  have extending := derives.advances.extending
  have wellFormed := coherent.wellFormed
  have wellFormed' := derives.advances.coherent.wellFormed
  obtain ⟨_, isDerivative⟩ := derives.isDerivative isResult
  refine wellFormed'.defined_of_counted fun later growing wellFormed'' => ?_
  refine isDerivative.counted later growing wellFormed'' ?_
  exact (extending.grows.trans growing).throughout_of_defined wellFormed wellFormed'' inside defined
    counted

namespace Coherent

variable (coherent : grammar.Coherent) (inside : id.number < grammar.arena.size)

include coherent

/-- After the evaluation of a derivative the grammar is coherent, but for a fault. -/
theorem advances_of_finished {faultless : Prop} {root : Derivation}
    {results : List (Result Derivation)}
    (finished : (derivation grammar c faultless).Finished root value results after)
    (derivatives : Table Derivation ExprId)
    (sound : DerivationSound
      { after with fault := none, tables := { after.tables with derivatives } })
    (unfolded : grammar.Unfolded ∅ → after.Unfolded ∅) (discharges : grammar.Discharges after) :
    grammar.Advances { after with fault := none, tables := { after.tables with derivatives } } := by
  have wellFormed := finished.wellFormed
  have extending : grammar.arena.Extends after.arena := finished.fromBase
  have later : DerivationLater grammar after := finished.later
  obtain ⟨config, _, ⟨nullability, _, tables⟩, truncated⟩ := later
  have equalities : after.tables.equalities = grammar.tables.equalities := by rw [tables]
  have simplified : after.tables.simplified = grammar.tables.simplified := by rw [tables]
  have nullabilitySound : grammar.arena.NullabilitySound after.config.fixpoint.maxPasses
      after.tables.nullability := by
    rw [config]
    exact finished.side.nullability
  exact
    { coherent :=
        { wellFormed := wellFormed
          fault := rfl
          nullability := nullabilitySound.extends extending coherent.wellFormed wellFormed
          equalities := by
            change after.arena.EqualitySound after.tables.equalities
            rw [equalities]
            exact coherent.equalities.grows extending.grows coherent.wellFormed wellFormed
          heights := by
            change ∀ id : ExprId, after.tables.heights.pending[id]? = none
            rw [tables]
            exact coherent.heights
          renderings := by
            change ∀ id : ExprId, after.tables.renderings.pending[id]? = none
            rw [tables]
            exact coherent.renderings
          simplified := coherent.simplified.extends simplified extending coherent.wellFormed
            wellFormed fun kept => equalities ▸ kept
          derivatives := sound
          deltas := by
            change DeltasSound after.arena after.tables.deltas
            rw [tables]
            exact coherent.deltas.extends extending coherent.wellFormed wellFormed }
      config := config
      extending := extending
      distinguishes := fun limit limited distinguishes => by
        change after.arena.Distinguishes limit after.tables.equalities
        rw [equalities]
        exact distinguishes.grows extending.grows (extending.agree limited) coherent.wellFormed
          wellFormed
      nullabilityTruncated := truncated
      equalitiesTruncated := fun kept => equalities ▸ kept
      normal := fun _ limited normal => normal.extends limited coherent.wellFormed extending
        wellFormed (by rw [tables]) equalities simplified
      unfolded := fun kept =>
        { unfolded kept with wellFormed := wellFormed }
      discharges := discharges.trans (.aside rfl rfl) }

include inside

theorem deriveDefined : Gives (deriveDefined id c) grammar fun result after =>
    grammar.Derives id c result after := by
  have side : DerivationSide grammar (grammar.arena.Faultless id) grammar :=
    ⟨coherent.wellFormed, coherent.nullability, fun _ => coherent.fault, by simp [coherent.fault]⟩
  refine (gives_bind _ _ _).mpr (((((yields_computeDerivative side
    coherent.derivatives.toDerivativesKept inside fun faultless => faultless).and_ensures
      (keepsUnfolded_derivative coherent.derivatives.toDerivativesKept inside)).and_ensures
        (pays_computeDerivative id c grammar)).settle .nil).mono ?_)
  rintro value after ⟨⟨⟨results, finished⟩, unfolded⟩, paid⟩
  obtain ⟨_, discharges⟩ := paid coherent.derivatives.singlePass
  have sound := derivationSound_of_finished finished coherent.wellFormed coherent.derivatives
  have wellFormed := finished.wellFormed
  have sameResolve := finished.fromBase.resolve coherent.wellFormed inside
  refine (gives_bind _ _ _).mpr ((gives_get _).mpr ?_)
  cases faulty : after.fault with
  | some error =>
      have refused : ¬ grammar.arena.Faultless id := fun faultless => by
        have := finished.side.fault faultless
        simp [faulty] at this
      refine ⟨coherent.advances_of_finished finished _ (.of_empty ?_) unfolded discharges,
        fun faultless => absurd faultless refused,
        fun counted => absurd (coherent.wellFormed.bounded_of_counted counted) refused, nofun⟩
      change Table.empty after.tables.derivatives.strategy = _
      rw [sound.singlePass]
  | none =>
      have same : ({ after with
          fault := none,
          tables := { after.tables with derivatives := after.tables.derivatives } } : Grammar) =
          after := by
        rw [← faulty]
      have advances := coherent.advances_of_finished finished after.tables.derivatives
        (same ▸ sound) unfolded discharges
      rw [same] at advances
      refine ⟨advances, fun _ => ⟨value, rfl⟩, fun _ => ⟨value, rfl⟩, ?_⟩
      rintro _ ⟨⟩
      refine ⟨(sound.settled_lt finished.answered).2, ?_⟩
      have isDerivative := sound.isDerivative finished.answered
      exact .of_resolve (sameResolve ▸ isDerivative) wellFormed

/-- A derivative is evaluated to its end.  If there is a fault then, the derivatives are forgotten
with it. -/
theorem deriveDefined_cases : Gives (Grammar.deriveDefined id c) grammar fun result after =>
    ∃ value evaluated results, (derivation grammar c (grammar.arena.Faultless id)).Finished
        ⟨grammar.arena.resolve id, c⟩ value results evaluated ∧
      ((evaluated.fault = none ∧ result = .ok value ∧ after = evaluated) ∨
        evaluated.fault = some .unboundedRepetition ∧ result = .error .unboundedRepetition ∧
          after = { evaluated with
            fault := none
            tables.derivatives := .empty evaluated.tables.derivatives.strategy }) := by
  have side : DerivationSide grammar (grammar.arena.Faultless id) grammar :=
    ⟨coherent.wellFormed, coherent.nullability, fun _ => coherent.fault, by simp [coherent.fault]⟩
  refine (gives_bind _ _ _).mpr (((yields_computeDerivative side
    coherent.derivatives.toDerivativesKept inside fun faultless => faultless).settle .nil).mono ?_)
  rintro value evaluated ⟨results, finished⟩
  refine (gives_bind _ _ _).mpr ((gives_get _).mpr ?_)
  cases faulty : evaluated.fault with
  | some error =>
      obtain rfl := finished.side.refusal error faulty
      exact ⟨value, evaluated, results, finished, .inr ⟨faulty, rfl, rfl⟩⟩
  | none => exact ⟨value, evaluated, results, finished, .inl ⟨faulty, rfl, rfl⟩⟩

/-- Beside its own table a derivative changes that of nullability. -/
theorem deriveDefined_tables : Gives (Grammar.deriveDefined id c) grammar fun _ after =>
    ∃ nullability derivatives, after.tables = { grammar.tables with nullability, derivatives } := by
  refine (coherent.deriveDefined_cases inside).mono ?_
  rintro result after ⟨value, evaluated, results, finished, isResult⟩
  have later : DerivationLater grammar evaluated := finished.later
  obtain ⟨nullability, derivatives, tables⟩ := later.tables
  rcases isResult with ⟨_, _, rfl⟩ | ⟨_, _, rfl⟩
  · exact ⟨nullability, derivatives, tables⟩
  · refine ⟨nullability, .empty evaluated.tables.derivatives.strategy, ?_⟩
    change { evaluated.tables with
      derivatives := .empty evaluated.tables.derivatives.strategy } = _
    rw [tables]

omit inside in
theorem undefined?_eq_none (defined : grammar.arena.Defined id) : grammar.undefined? id = none := by
  unfold undefined?
  split
  · rfl
  · exact coherent.wellFormed.firstUnbound?_eq_none defined

/-- The derivative is refused for undefined references, without any change. -/
theorem derivative : Gives (derivative id c) grammar fun result after =>
    grammar.Advances after ∧ (grammar.arena.Defined id → grammar.Derives id c result after) := by
  refine (gives_bind _ _ _).mpr ((gives_get _).mpr ?_)
  cases undefined : grammar.undefined? id with
  | some link =>
      refine ⟨coherent.advances_refl, fun defined => ?_⟩
      simp [coherent.undefined?_eq_none defined] at undefined
  | none =>
      exact (coherent.deriveDefined inside).mono fun _ _ derives =>
        ⟨derives.advances, fun _ => derives⟩

/-- What is answered is a derivative, whether references are defined or not. -/
theorem derives_of_ok : Gives (Grammar.derivative id c) grammar fun result after =>
    ∀ value, result = .ok value → grammar.Derives id c result after := by
  refine (gives_bind _ _ _).mpr ((gives_get _).mpr ?_)
  split
  · exact (gives_pure _ _).mpr nofun
  · exact (coherent.deriveDefined inside).mono fun _ _ derives _ _ => derives

theorem derivative_lt : Gives (Grammar.derivative id c) grammar fun result after =>
    ∀ value, result = .ok value → value.number < after.arena.size :=
  (coherent.derives_of_ok inside).mono fun _ _ derives value isResult =>
    ((derives value isResult).isDerivative isResult).1

theorem derivativeOfText (text : String) : Gives (derivativeOfText id text) grammar fun _ after =>
    grammar.Advances after := by
  unfold Grammar.derivativeOfText
  split
  · exact (coherent.derivative inside).mono fun _ _ answers => answers.1
  · exact (gives_pure _ _).mpr coherent.advances_refl

end Coherent

end Residual.Grammar
