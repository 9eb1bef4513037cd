import Residual.Proofs.Grammar.Bisimilarity

/-!
# How long answers about equality last

The equality table is emptied whenever a reference is defined, but not when a transformation binds
one of its own links, which earlier answers took for `∅`.  Such an answer is never that two
expressions are equal which are not: `false` may be out of date, and only where a link was bound
since the tables were emptied.
-/

set_option autoImplicit false

namespace Residual.Grammar

open Memo

variable {grammar before after : Grammar} {x y : ExprId}

/-- What an answer about equality says about bisimilarity. -/
theorem equal_cases (coherent : grammar.Coherent) (inside : x.number < grammar.arena.size)
    (inside' : y.number < grammar.arena.size) :
    Gives (equal x y) grammar fun value after => after.arena = grammar.arena ∧
      (after.tables.equalities.truncated = false → value = true → grammar.arena.Bisimilar x y) ∧
      ∀ limit, grammar.Distinguishes limit → grammar.arena.Bisimilar x y → value = true ∨
        grammar.arena.Patched limit (grammar.arena.resolve x) ∨
          grammar.arena.Patched limit (grammar.arena.resolve y) := by
  have wellFormed := coherent.wellFormed
  refine ((yields_computeEqual wellFormed coherent.equalities inside inside').settle true).mono ?_
  rintro value ⟨_, _, _, _, _⟩
    ⟨⟨equalities, rfl, sound, _, _, distinguishes, _, settled⟩, rfl, rfl, rfl⟩
  refine ⟨rfl, ?_, fun limit fromBase bisimilar => ?_⟩
  · rintro complete rfl
    exact ⟨_, sound.isBisimulation, .inr settled, .inl complete⟩
  · cases value with
    | true => exact .inl rfl
    | false =>
        have bisimilar := (Arena.bisimilar_resolve wellFormed).mpr bisimilar
        have patched := (distinguishes limit fromBase).patched settled
          (Arena.bisimilar_unorderedPair.mpr bisimilar)
        exact .inr (Arena.patched_unorderedPair patched)

/-- After any calls since the tables were emptied, a pair that is called equal is called so by empty
tables, too.  And a pair without links below it that were bound since then is answered as by empty
tables, if no passes ran out. -/
theorem equal_eq_equal_clearTables (reachable : before.Reachable)
    (evolves : before.clearTables.Evolves after) (inside : x.number < after.arena.size)
    (inside' : y.number < after.arena.size)
    (complete : (equal x y after).2.tables.equalities.truncated = false)
    (complete' : (equal x y after.clearTables).2.tables.equalities.truncated = false) :
    ((equal x y after).1 = true → (equal x y after.clearTables).1 = true) ∧
      (¬ after.arena.Patched before.arena.size (after.arena.resolve x) →
        ¬ after.arena.Patched before.arena.size (after.arena.resolve y) →
          (equal x y after).1 = (equal x y after.clearTables).1) := by
  have grows := reachable.coherent.clearTables.coherent.evolves evolves
  have distinguishes : after.Distinguishes before.arena.size :=
    grows.distinguishes _ le_rfl (.empty _ _ _)
  have fresh : after.clearTables.Distinguishes after.arena.size := .empty _ _ _
  obtain ⟨_, isBisimilar, called⟩ := equal_cases grows.coherent inside inside'
  obtain ⟨_, isBisimilar', called'⟩ :=
    equal_cases grows.coherent.clearTables.coherent inside inside'
  have lasts : (equal x y after).1 = true → (equal x y after.clearTables).1 = true := by
    intro equal
    rcases called' _ fresh (isBisimilar complete equal) with equal | patched | patched
    · exact equal
    · exact absurd patched Arena.not_patched_size
    · exact absurd patched Arena.not_patched_size
  refine ⟨lasts, fun clean clean' => ?_⟩
  rw [Bool.eq_iff_iff]
  refine ⟨lasts, fun equal => ?_⟩
  rcases called _ distinguishes (isBisimilar' complete' equal) with equal | patched | patched
  · exact equal
  · exact absurd patched clean
  · exact absurd patched clean'

/-- One question about a recursive rule after another one. -/
theorem equal_eq_equal_clearTables_copies :
    let after := (equal ⟨5⟩ .empty copiedRepetition.clearTables).2
    copiedRepetition.clearTables.Evolves after ∧
      (equal ⟨3⟩ .empty after).1 = (equal ⟨3⟩ .empty after.clearTables).1 := by
  intro after
  have cleared := copiedRepetition_reachable.coherent.clearTables.coherent
  have evolves : copiedRepetition.clearTables.Evolves after :=
    .call (.equal ⟨5⟩ .empty) .refl (by decide)
  obtain ⟨advances, complete⟩ := cleared.equal (x := ⟨5⟩) (y := .empty) (by decide) (by decide)
  have complete : after.Complete := complete (.inr cleared.wellFormed.acyclic_empty) ⟨rfl, rfl⟩
  have inside : (⟨3⟩ : ExprId).number < after.arena.size := advances.lt_size (by decide)
  have inside' : ExprId.empty.number < after.arena.size := advances.lt_size (by decide)
  obtain ⟨_, answered⟩ := advances.coherent.equal inside inside'
  have recleared := advances.coherent.clearTables.coherent
  obtain ⟨_, answered'⟩ := recleared.equal inside inside'
  have sameArena : after.arena = copiedRepetition.arena :=
    (equal_cases cleared (x := ⟨5⟩) (y := .empty) (by decide) (by decide)).1
  have clean : ∀ {id}, ¬ after.arena.Patched copiedRepetition.arena.size id := by
    rw [sameArena]
    exact Arena.not_patched_size
  exact ⟨evolves, (equal_eq_equal_clearTables copiedRepetition_reachable evolves inside inside'
    (answered (.inr advances.coherent.wellFormed.acyclic_empty) complete).equalities
    (answered' (.inr recleared.wellFormed.acyclic_empty) ⟨rfl, rfl⟩).equalities).2 clean clean⟩

end Residual.Grammar
