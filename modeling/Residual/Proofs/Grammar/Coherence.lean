import Residual.Grammar.Construction
import Residual.Proofs.Grammar.Delta.Entries
import Residual.Proofs.Grammar.Derivative.Soundness
import Residual.Proofs.Grammar.Discharge
import Residual.Proofs.Grammar.NormalForm.Entries
import Residual.Proofs.Grammar.NormalForm.Soundness
import Residual.Proofs.Grammar.Unfolding

/-!
# Coherent grammars

Between the calls of its operations a grammar is coherent: no evaluation is in progress, no fault
is left, and whatever its tables say about its expressions is right.

`Advances` is what all questions have in common.  They may add expressions, but the slots that
were there stay as they are, all links that are reserved are bound, and tables that ran out of passes
do not forget it.  If all expressions had trees, those that are added have trees too.  What is known
of the simplified forms of closed expressions is still right.
-/

set_option autoImplicit false

namespace Residual.Grammar

open Memo Eval

/-- No delta is being made, and those that are known are right. -/
structure DeltasSound (arena : Arena) (table : Table ExprId ExprId) : Prop where
  idle : ∀ id : ExprId, table.pending[id]? = none
  singlePass : table.strategy = .singlePass
  isDelta : ∀ {id delta : ExprId}, table.settled[id]? = some delta →
    arena.IsDelta arena id delta

/-- Everything that the tables of a grammar say about its expressions is right. -/
structure Coherent (grammar : Grammar) : Prop where
  wellFormed : grammar.arena.WellFormed
  fault : grammar.fault = none
  nullability :
    grammar.arena.NullabilitySound grammar.config.fixpoint.maxPasses grammar.tables.nullability
  equalities : grammar.arena.EqualitySound grammar.tables.equalities
  heights : ∀ id : ExprId, grammar.tables.heights.pending[id]? = none
  renderings : ∀ id : ExprId, grammar.tables.renderings.pending[id]? = none
  simplified : SimplificationSound grammar
  derivatives : DerivationSound grammar
  deltas : DeltasSound grammar.arena grammar.tables.deltas

/-- The passes of truth values did not run out since the tables were emptied. -/
structure Complete (grammar : Grammar) : Prop where
  nullability : grammar.tables.nullability.truncated = false
  equalities : grammar.tables.equalities.truncated = false

/-- Only slots were added to the arena, and the tables are still right. -/
structure Advances (before after : Grammar) : Prop where
  coherent : after.Coherent
  config : after.config = before.config
  extending : before.arena.Extends after.arena
  distinguishes : ∀ limit ≤ before.arena.size, before.Distinguishes limit → after.Distinguishes limit
  nullabilityTruncated : before.tables.nullability.truncated = true →
    after.tables.nullability.truncated = true
  equalitiesTruncated : before.tables.equalities.truncated = true →
    after.tables.equalities.truncated = true
  normal : ∀ limit ≤ before.arena.size, before.Normal limit → after.Normal limit
  unfolded : before.Unfolded ∅ → after.Unfolded ∅
  discharges : before.Discharges after

variable {before after grammar : Grammar} {id x y : ExprId} {e : Expr ExprId}

theorem Coherent.advances_refl (coherent : grammar.Coherent) : grammar.Advances grammar :=
  ⟨coherent, rfl, .refl _, fun _ _ distinguishes => distinguishes, fun truncated => truncated,
    fun truncated => truncated, fun _ _ normal => normal, fun unfolded => unfolded, .refl grammar⟩

theorem Advances.trans {first second third : Grammar} (earlier : first.Advances second)
    (later : second.Advances third) : first.Advances third where
  coherent := later.coherent
  config := later.config.trans earlier.config
  extending := earlier.extending.trans later.extending
  distinguishes limit limited distinguishes :=
    later.distinguishes limit (limited.trans earlier.extending.grows.size_le)
      (earlier.distinguishes limit limited distinguishes)
  nullabilityTruncated truncated := later.nullabilityTruncated (earlier.nullabilityTruncated truncated)
  equalitiesTruncated truncated := later.equalitiesTruncated (earlier.equalitiesTruncated truncated)
  normal limit limited normal :=
    later.normal limit (limited.trans earlier.extending.grows.size_le)
      (earlier.normal limit limited normal)
  unfolded unfolded := later.unfolded (earlier.unfolded unfolded)
  discharges := earlier.discharges.trans later.discharges

theorem Advances.lt_size (advances : before.Advances after)
    (inside : id.number < before.arena.size) : id.number < after.arena.size :=
  advances.extending.grows.lt_size inside

theorem DeltasSound.extends {earlier later : Arena} {table : Table ExprId ExprId}
    (sound : DeltasSound earlier table) (extending : earlier.Extends later)
    (wellFormed : earlier.WellFormed) (wellFormed' : later.WellFormed) :
    DeltasSound later table where
  idle := sound.idle
  singlePass := sound.singlePass
  isDelta settled :=
    ((sound.isDelta settled).extends extending wellFormed wellFormed').later extending wellFormed
      wellFormed'

theorem SimplificationSound.extends (sound : SimplificationSound before)
    (same : after.tables.simplified = before.tables.simplified)
    (extending : before.arena.Extends after.arena) (wellFormed : before.arena.WellFormed)
    (wellFormed' : after.arena.WellFormed)
    (truncated : before.tables.equalities.truncated = true →
      after.tables.equalities.truncated = true) : SimplificationSound after where
  idle := by
    rw [same]
    exact sound.idle
  singlePass := by
    rw [same]
    exact sound.singlePass
  settled_lt settled := by
    rw [same] at settled
    exact extending.grows.lt_size (sound.settled_lt settled)
  isSimplified settled := by
    rw [same] at settled
    exact (sound.isSimplified settled).extends extending wellFormed wellFormed'
      (sound.settled_lt settled) fun _ trusted => trusted.of_later truncated

theorem DerivationSound.extends (sound : DerivationSound before)
    (same : after.tables.derivatives = before.tables.derivatives)
    (extending : before.arena.Extends after.arena) (wellFormed : before.arena.WellFormed)
    (wellFormed' : after.arena.WellFormed)
    (truncated : before.tables.nullability.truncated = true →
      after.tables.nullability.truncated = true) : DerivationSound after where
  idle := by
    rw [same]
    exact sound.idle
  singlePass := by
    rw [same]
    exact sound.singlePass
  settled_lt settled := by
    rw [same] at settled
    exact (sound.settled_lt settled).imp extending.grows.lt_size extending.grows.lt_size
  isDerivative settled := by
    rw [same] at settled
    obtain ⟨inside, inside'⟩ := sound.settled_lt settled
    exact (sound.isDerivative settled).extends extending wellFormed wellFormed' inside inside'
      fun _ trusted => trusted.of_later truncated

theorem SimplificationSound.of_empty (isEmpty : grammar.tables.simplified = .empty .singlePass) :
    SimplificationSound grammar where
  idle := by simp [isEmpty]
  singlePass := by rw [isEmpty]; rfl
  settled_lt := by simp [isEmpty]
  isSimplified := by simp [isEmpty]

theorem DerivationSound.of_empty (isEmpty : grammar.tables.derivatives = .empty .singlePass) :
    DerivationSound grammar where
  idle := by simp [isEmpty]
  singlePass := by rw [isEmpty]; rfl
  settled_lt := by simp [isEmpty]
  isDerivative := by simp [isEmpty]

namespace Coherent

variable (coherent : grammar.Coherent)

/-- Tables without entries say nothing wrong. -/
theorem of_empty (wellFormed : grammar.arena.WellFormed) (fault : grammar.fault = none) :
    Coherent { grammar with tables := .empty grammar.config.fixpoint } where
  wellFormed := wellFormed
  fault := fault
  nullability := .empty _
  equalities := .empty _
  heights := Table.pending_empty _
  renderings := Table.pending_empty _
  simplified := .of_empty rfl
  derivatives := .of_empty rfl
  deltas := ⟨Table.pending_empty _, rfl, by simp [Tables.empty]⟩

theorem ofConfig (config : Config) : (ofConfig config).Coherent := by
  have wellFormed : (Grammar.ofConfig config).arena.WellFormed := Arena.wellFormed_initial
  exact of_empty wellFormed rfl

include coherent

/-- The arena is extended, and analyses change their own tables. -/
theorem extend {arena : Arena} {nullability : Table ExprId Bool}
    {equalities : Table (ExprId × ExprId) Bool} {heights : Table ExprId Nat}
    {renderings : Table ExprId String} {journal : Journal}
    (wellFormed : arena.WellFormed) (extending : grammar.arena.Extends arena)
    (nullabilitySound : arena.NullabilitySound grammar.config.fixpoint.maxPasses nullability)
    (nullabilityTruncated : grammar.tables.nullability.truncated = true →
      nullability.truncated = true)
    (equalitySound : arena.EqualitySound equalities)
    (equalitiesTruncated : grammar.tables.equalities.truncated = true →
      equalities.truncated = true)
    (heightsIdle : ∀ id : ExprId, heights.pending[id]? = none)
    (renderingsIdle : ∀ id : ExprId, renderings.pending[id]? = none) :
    Coherent
      { grammar with
        arena
        tables := { grammar.tables with nullability, equalities, heights, renderings }
        journal } where
  wellFormed := wellFormed
  fault := coherent.fault
  nullability := nullabilitySound
  equalities := equalitySound
  heights := heightsIdle
  renderings := renderingsIdle
  simplified := coherent.simplified.extends rfl extending coherent.wellFormed wellFormed
    equalitiesTruncated
  derivatives := coherent.derivatives.extends rfl extending coherent.wellFormed wellFormed
    nullabilityTruncated
  deltas := coherent.deltas.extends extending coherent.wellFormed wellFormed

/-- More slots do no harm to the tables. -/
theorem extend_arena {arena : Arena} (wellFormed : arena.WellFormed)
    (extending : grammar.arena.Extends arena) :
    Coherent { grammar with arena } ∧ ∀ limit ≤ grammar.arena.size,
      grammar.Distinguishes limit → arena.Distinguishes limit grammar.tables.equalities :=
  ⟨coherent.extend wellFormed extending
    (coherent.nullability.extends extending coherent.wellFormed wellFormed) id
    (coherent.equalities.grows extending.grows coherent.wellFormed wellFormed) id coherent.heights
    coherent.renderings,
    fun _ limited distinguishes =>
      distinguishes.grows extending.grows (extending.agree limited) coherent.wellFormed wellFormed⟩

theorem advances_arena {arena : Arena} (wellFormed : arena.WellFormed)
    (extending : grammar.arena.Extends arena)
    (discharges : grammar.Discharges { grammar with arena })
    (unfolded : grammar.Unfolded ∅ → Unfolded ∅ { grammar with arena }) :
    grammar.Advances { grammar with arena } := by
  obtain ⟨extended, distinguishes⟩ := coherent.extend_arena wellFormed extending
  exact
    { coherent := extended
      config := rfl
      extending := extending
      distinguishes := distinguishes
      nullabilityTruncated := id
      equalitiesTruncated := id
      normal := fun _ limited normal =>
        normal.extends limited coherent.wellFormed extending wellFormed rfl rfl rfl
      unfolded := unfolded
      discharges := discharges }

/-- Analyses change their own tables and the journal. -/
theorem advances_tables {nullability : Table ExprId Bool}
    {equalities : Table (ExprId × ExprId) Bool} {heights : Table ExprId Nat}
    {renderings : Table ExprId String} {journal : Journal}
    (nullabilitySound :
      grammar.arena.NullabilitySound grammar.config.fixpoint.maxPasses nullability)
    (nullabilityTruncated : grammar.tables.nullability.truncated = true →
      nullability.truncated = true)
    (equalitySound : grammar.arena.EqualitySound equalities)
    (distinguishes : ∀ limit ≤ grammar.arena.size, grammar.Distinguishes limit →
      grammar.arena.Distinguishes limit equalities)
    (equalitiesTruncated : grammar.tables.equalities.truncated = true →
      equalities.truncated = true)
    (lasts : grammar.tables.equalities.Lasts equalities)
    (heightens : grammar.arena.Heightens grammar.tables.heights heights)
    (renderingsIdle : ∀ id : ExprId, renderings.pending[id]? = none)
    (unfolded : grammar.Unfolded ∅ → Unfolded ∅
      { grammar with
        tables := { grammar.tables with nullability, equalities, heights, renderings }
        journal }) :
    grammar.Advances
      { grammar with
        tables := { grammar.tables with nullability, equalities, heights, renderings }
        journal } where
  coherent := coherent.extend coherent.wellFormed (.refl _) nullabilitySound nullabilityTruncated
    equalitySound equalitiesTruncated heightens.idle renderingsIdle
  config := rfl
  extending := .refl _
  distinguishes := distinguishes
  nullabilityTruncated := nullabilityTruncated
  equalitiesTruncated := equalitiesTruncated
  normal _ _ normal := normal.of_heightens coherent.wellFormed rfl heightens lasts rfl
  unfolded := unfolded
  discharges := .aside rfl rfl

theorem advances_journal (journal : Journal) : grammar.Advances { grammar with journal } :=
  coherent.advances_tables coherent.nullability id coherent.equalities
    (fun _ _ distinguishes => distinguishes) id (.refl _) (.refl coherent.heights)
    coherent.renderings fun unfolded => { unfolded with wellFormed := unfolded.wellFormed }

/-! ## Questions -/

/-- Nullability is right, and without cycles its passes do not run out. -/
theorem yields_nullable (inside : id.number < grammar.arena.size) :
    (computeNullable id).Yields grammar fun answer after => grammar.Advances after ∧
      after.arena = grammar.arena ∧
        grammar.arena.IsNullable after.tables.nullability.Trusts id answer ∧
        (grammar.arena.Acyclic id → grammar.Complete → after.Complete) := by
  refine ((yields_computeNullable coherent.wellFormed (.refl _) coherent.nullability
    inside).and_ensures (keepsUnfolded_nullable inside)).mono ?_
  rintro answer ⟨_, _, _, _, _⟩
    ⟨⟨⟨nullability, rfl, sound, truncated, grounded, settled⟩, rfl, rfl, rfl⟩, unfolded⟩
  refine ⟨coherent.advances_tables sound truncated coherent.equalities
    (fun _ _ kept => kept) (fun kept => kept) (.refl _) (.refl coherent.heights)
    coherent.renderings unfolded, rfl,
    sound.isNullable coherent.wellFormed settled, fun acyclic complete => ⟨?_, complete.equalities⟩⟩
  have grounded := grounded (coherent.wellFormed.grounded_of_acyclic acyclic)
  exact Bool.eq_false_iff.mpr fun isTruncated =>
    Bool.eq_false_iff.mp complete.nullability (grounded isTruncated)

/-- The passes of an equality do not run out if one of its sides is without cycles. -/
theorem equal (inside : x.number < grammar.arena.size) (inside' : y.number < grammar.arena.size) :
    Gives (equal x y) grammar fun _ after => grammar.Advances after ∧
      (grammar.arena.Acyclic x ∨ grammar.arena.Acyclic y → grammar.Complete → after.Complete) := by
  refine (((yields_computeEqual coherent.wellFormed coherent.equalities inside
    inside').and_ensures (keepsUnfolded_equal inside inside')).settle true).mono ?_
  rintro answer ⟨_, _, _, _, _⟩
    ⟨⟨⟨equalities, rfl, sound, truncated, grounded, distinguishes, lasts, _⟩, rfl, rfl, rfl⟩, unfolded⟩
  refine ⟨coherent.advances_tables coherent.nullability (fun kept => kept)
    sound (fun limit _ => distinguishes limit) truncated lasts (.refl coherent.heights)
    coherent.renderings unfolded, fun acyclic complete => ⟨complete.nullability, ?_⟩⟩
  have grounded := grounded
    (acyclic.imp coherent.wellFormed.grounded_of_acyclic coherent.wellFormed.grounded_of_acyclic)
  exact Bool.eq_false_iff.mpr fun isTruncated =>
    Bool.eq_false_iff.mp complete.equalities (grounded isTruncated)

theorem height (inside : id.number < grammar.arena.size) :
    Gives (height id) grammar fun _ after => grammar.Advances after := by
  refine (((yields_computeHeight coherent.wellFormed coherent.heights inside).and_ensures
    (keepsUnfolded_height inside)).settle 0).mono ?_
  rintro answer ⟨_, _, _, _, _⟩ ⟨⟨⟨heights, rfl, heightens, _⟩, rfl, rfl, rfl⟩, unfolded⟩
  exact coherent.advances_tables coherent.nullability (fun kept => kept)
    coherent.equalities (fun _ _ kept => kept) (fun kept => kept) (.refl _) heightens
    coherent.renderings unfolded

theorem render (inside : id.number < grammar.arena.size) :
    Gives (render id) grammar fun _ after => grammar.Advances after := by
  refine (((yields_computeRendering coherent.wellFormed coherent.renderings inside).and_ensures
    (keepsUnfolded_render inside)).settle ellipsis).mono ?_
  rintro answer ⟨_, _, _, _, _⟩ ⟨⟨⟨renderings, rfl, idle⟩, rfl, rfl, rfl⟩, unfolded⟩
  exact coherent.advances_tables coherent.nullability (fun kept => kept)
    coherent.equalities (fun _ _ kept => kept) (fun kept => kept) (.refl _)
    (.refl coherent.heights) idle unfolded

end Coherent

end Residual.Grammar
