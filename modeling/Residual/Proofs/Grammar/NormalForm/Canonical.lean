import Residual.Proofs.Grammar.Construction
import Residual.Proofs.Grammar.NormalForm.Answers
import Residual.Proofs.Grammar.NormalForm.Unfolding

/-!
# Simplifying and canonicalizing

Both answer with an expression that keeps the meaning of the original, in the present arena and in
every later one, and is defined if the original is.  One pass leaves no improper repetition
behind.
-/

set_option autoImplicit false

namespace Residual

open Memo Eval

/-- What is kept for the end of a chain of links is kept for its start. -/
theorem Arena.Keeps.of_resolve {before arena : Arena} {senses : Sense → Prop} {id value : ExprId}
    (keeps : arena.Keeps senses (before.resolve id) value) (growing : before.Grows arena)
    (wellFormed : before.WellFormed) : arena.Keeps senses id value := by
  intro later onward wellFormed' sense trusted lang means
  refine keeps later onward wellFormed' sense trusted lang ?_
  refine wellFormed'.means_of_resolve_eq ?_ means
  exact (growing.trans onward).resolve_resolve wellFormed wellFormed' id

theorem Arena.Narrows.of_resolve {before arena : Arena} {id value : ExprId}
    (narrows : arena.Narrows (before.resolve id) value) (growing : before.Grows arena)
    (wellFormed : before.WellFormed) : arena.Narrows id value := by
  intro later onward wellFormed' free
  have sameResolve := (growing.trans onward).resolve_resolve wellFormed wellFormed' id
  rw [← Interpretation.words.least_eq_of_resolve wellFormed' sameResolve]
  exact narrows later onward wellFormed' ((throughout_congr sameResolve).mpr free)

namespace Grammar

variable {grammar before : Grammar} {id value : ExprId}

/-- The grammar advances to an expression of the same meaning, or with fewer strings if the tables
are not right. -/
structure Normalizes (before : Grammar) (id value : ExprId) (after : Grammar) : Prop where
  advances : before.Advances after
  inside : value.number < after.arena.size
  keeps : after.arena.Keeps after.tables.equalities.Trusts id value
  narrows : after.arena.Narrows id value
  defined : after.arena.Defined id → after.arena.Defined value

/-- What is said about definedness is still right after new slots. -/
theorem Advances.defined_of_defined {first second third : Grammar} (earlier : first.Advances second)
    (later : second.Advances third) (inside : value.number < second.arena.size)
    (implies : second.arena.Defined id → second.arena.Defined value)
    (defined : third.arena.Defined id) : third.arena.Defined value := by
  have wellFormed := earlier.coherent.wellFormed
  refine (later.extending.defined_iff wellFormed inside).mpr (implies ?_)
  exact later.extending.defined wellFormed later.coherent.wellFormed defined

theorem Normalizes.trans {first second third : Grammar} {value' : ExprId}
    (earlier : first.Normalizes id value second) (later : second.Normalizes value value' third) :
    first.Normalizes id value' third where
  advances := earlier.advances.trans later.advances
  inside := later.inside
  keeps := (earlier.keeps.later later.advances.extending.grows fun _ trusted =>
    trusted.of_later later.advances.equalitiesTruncated).trans later.keeps
  narrows := (earlier.narrows.later later.advances.extending.grows).trans later.narrows
  defined defined := later.defined
    (earlier.advances.defined_of_defined later.advances earlier.inside earlier.defined defined)

/-- Going on without touching the arena. -/
theorem Normalizes.advance {first second third : Grammar}
    (normalizes : first.Normalizes id value second) (later : second.Advances third) :
    first.Normalizes id value third where
  advances := normalizes.advances.trans later
  inside := later.lt_size normalizes.inside
  keeps := normalizes.keeps.later later.extending.grows fun _ trusted =>
    trusted.of_later later.equalitiesTruncated
  narrows := normalizes.narrows.later later.extending.grows
  defined := normalizes.advances.defined_of_defined later normalizes.inside normalizes.defined

/-- New slots do not change which operators can be reached. -/
theorem Advances.counted {after : Grammar} (advances : before.Advances after)
    (coherent : before.Coherent) (inside : id.number < before.arena.size)
    (counted : before.arena.Counted id) : after.arena.Counted id :=
  (advances.extending.throughout_iff coherent.wellFormed advances.coherent.wellFormed inside
    ⟨nofun, nofun⟩).mpr counted

namespace Coherent

variable (coherent : grammar.Coherent) (inside : id.number < grammar.arena.size)

include coherent inside

theorem normalizes_refl : grammar.Normalizes id id grammar :=
  ⟨coherent.advances_refl, inside, .refl _ _ _, .refl _ _, fun defined => defined⟩

omit inside in
theorem simplificationSide : SimplificationSide grammar grammar :=
  ⟨coherent.wellFormed, .refl _, coherent.equalities, fun _ _ distinguishes => distinguishes,
    coherent.heights⟩

/-- What a pass keeps of closed expressions, and what it finds out. -/
theorem ensures_learns : Ensures (computeSimplified id) grammar fun value after =>
    ∀ limit ≤ grammar.arena.size, grammar.Normal limit → Learns limit grammar id value after :=
  ensures_computeSimplified coherent.simplificationSide coherent.simplified.toSimplifiedKept inside

theorem simplify : Gives (simplify id) grammar fun value after =>
    grammar.Normalizes id value after ∧ after.arena.Counted value := by
  have kept := coherent.simplified.toSimplifiedKept
  refine (((((yields_computeSimplified coherent.simplificationSide kept inside).and_ensures
    (keepsUnfolded_simplified kept inside)).and_ensures
      (pays_computeSimplified id grammar)).and_ensures
        (coherent.ensures_learns inside)).settle id).mono ?_
  rintro value after ⟨⟨⟨⟨results, finished⟩, unfolded⟩, paid⟩, learns⟩
  have sound := simplificationSound_of_finished finished coherent.wellFormed coherent.simplified
  have isSimplified := sound.isSimplified finished.answered
  have wellFormed := finished.wellFormed
  have extending : grammar.arena.Extends after.arena := finished.fromBase
  have later : SimplificationLater grammar after := finished.later
  obtain ⟨config, fault, ⟨heights, equalities, simplified, tables⟩, truncated⟩ := later
  have nullability : after.tables.nullability = grammar.tables.nullability := by rw [tables]
  have derivatives : after.tables.derivatives = grammar.tables.derivatives := by rw [tables]
  have advances : grammar.Advances after :=
    { coherent :=
        { wellFormed := wellFormed
          fault := fault.trans coherent.fault
          nullability := by
            rw [nullability, config]
            exact coherent.nullability.extends extending coherent.wellFormed wellFormed
          equalities := finished.side.equalities
          heights := finished.side.heights
          renderings := by
            rw [tables]
            exact coherent.renderings
          simplified := sound
          derivatives := coherent.derivatives.extends derivatives extending coherent.wellFormed
            wellFormed fun kept => nullability ▸ kept
          deltas := by
            rw [tables]
            exact coherent.deltas.extends extending coherent.wellFormed wellFormed }
      config := config
      extending := extending
      distinguishes := finished.side.distinguishes
      nullabilityTruncated := fun kept => nullability ▸ kept
      equalitiesTruncated := truncated
      normal := fun limit limited normal => (learns limit limited normal).normal
      unfolded := unfolded
      discharges := (paid coherent.simplified.singlePass).2 }
  have sameResolve := extending.grows.resolve_resolve coherent.wellFormed wellFormed id
  have normalizes : grammar.Normalizes id value after :=
    { advances := advances
      inside := sound.settled_lt finished.answered
      keeps := isSimplified.means.of_resolve extending.grows coherent.wellFormed
      narrows := isSimplified.narrows.of_resolve extending.grows coherent.wellFormed
      defined := fun defined =>
        isSimplified.defined ((Arena.defined_congr sameResolve).mpr defined) }
  exact ⟨normalizes, isSimplified.counted⟩

theorem simplify_learns : Gives (Grammar.simplify id) grammar fun value after =>
    ∀ limit ≤ grammar.arena.size, grammar.Normal limit → Learns limit grammar id value after :=
  (((yields_computeSimplified coherent.simplificationSide coherent.simplified.toSimplifiedKept
    inside).and_ensures (coherent.ensures_learns inside)).settle id).mono fun _ _ both => both.2

/-- What is never repeated is `ε` at once. -/
theorem simplify_never {lang : ExprId} (never : grammar.arena.get id = .rep lang (.finite 0))
    (fresh : grammar.tables.simplified.settled[grammar.arena.resolve id]? = none) :
    Gives (Grammar.simplify id) grammar fun value after => value = ExprId.empty ∧
      (grammar.Complete → after.Complete) := by
  refine Yields.settle ?_ id
  have wellFormed := coherent.wellFormed
  have isUnknown : grammar.tables.simplified.lookup (grammar.arena.resolve id) = .unknown := by
    unfold Table.lookup
    rw [fresh, coherent.simplified.idle]
  have notInUse : grammar.tables.simplified.inUse = false :=
    Table.not_inUse_iff.mpr coherent.simplified.idle
  have immediate : ∀ (recur : ExprId → Eval Grammar ExprId) (state : Grammar),
      state.arena = grammar.arena.reserve.2 →
      (simplifyStep recur (grammar.arena.resolve id)).Yields state fun answer after =>
        answer = .empty ∧ after = state := by
    intro recur state isReserved
    have sameGet : state.get (grammar.arena.resolve id) = .rep lang (.finite 0) := by
      rw [Grammar.get, isReserved, (Arena.extends_reserve _).get wellFormed
        (wellFormed.resolve_lt inside), wellFormed.get_resolve, never]
    unfold simplifyStep
    simp only [yields_bind, yields_get, sameGet, yields_pure, and_self]
  unfold computeSimplified
  simp only [yields_bind, yields_get]
  refine (yields_transformation_at_once (simplification_isField grammar) isUnknown notInUse
    coherent.simplified.singlePass immediate _).mono ?_
  rintro value after ⟨isEmpty, _, f, sameTables⟩
  refine ⟨isEmpty, fun complete => ⟨?_, ?_⟩⟩
  · rw [sameTables]
    exact complete.nullability
  · rw [sameTables]
    exact complete.equalities

/-- Any number of passes keeps the meaning, and one is enough for the repetitions. -/
theorem simplifyWithin (passes done : Nat) :
    Gives (simplifyWithin id done passes) grammar fun result after =>
      grammar.Normalizes id result.expr after ∧
        (0 < passes ∨ grammar.arena.Counted id → after.arena.Counted result.expr) := by
  induction passes generalizing grammar id done with
  | zero =>
      exact ⟨coherent.normalizes_refl inside, fun counted =>
        counted.resolve_left (Nat.lt_irrefl 0)⟩
  | succ passes inductionHypothesis =>
      refine (gives_bind _ _ _).mpr ((coherent.simplify inside).mono ?_)
      rintro next between ⟨normalizes, counted⟩
      have coherent' := normalizes.advances.coherent
      refine (gives_bind _ _ _).mpr ((coherent'.equal (normalizes.advances.lt_size inside)
        normalizes.inside).mono ?_)
      rintro isEqual later ⟨advances, _⟩
      have normalizes' := normalizes.advance advances
      have counted' := advances.counted coherent' normalizes.inside counted
      split
      · exact (gives_pure _ _).mpr ⟨normalizes', fun _ => counted'⟩
      · refine (inductionHypothesis advances.coherent normalizes'.inside (done + 1)).mono ?_
        rintro result after ⟨onward, isCounted⟩
        exact ⟨normalizes'.trans onward, fun _ => isCounted (.inr counted')⟩

theorem canonicalize : Gives (canonicalize id) grammar fun value after =>
    grammar.Normalizes id value after ∧
      (0 < grammar.config.simplify.maxPasses ∨ grammar.arena.Counted id →
        after.arena.Counted value) := by
  refine (gives_bind _ _ _).mpr ((gives_get _).mpr ?_)
  refine (gives_bind _ _ _).mpr ((coherent.simplifyWithin inside _ 0).mono ?_)
  rintro result between ⟨normalizes, counted⟩
  have noted : ∀ journal : Journal, between.Advances { between with journal } :=
    normalizes.advances.coherent.advances_journal
  split
  all_goals
    exact ⟨normalizes.advance (noted _), fun isCounted =>
      (noted _).counted normalizes.advances.coherent normalizes.inside (counted isCounted)⟩

end Coherent

end Grammar

end Residual
