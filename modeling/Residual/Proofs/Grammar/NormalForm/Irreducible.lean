import Residual.Proofs.Grammar.NormalForm.Convergence

/-!
# Canonical expressions are irreducible

The rounds of a canonicalization stop when one of them made an equal expression, and no rule applies
anywhere in it then.  Simplifying it once more answers with the expression itself.

The rules for unions are tried with the heights and the equalities that the tables know.  These are
not emptied when a transformation binds one of its own links, so that a rule may be missed below
which a link was bound since they were emptied.
-/

set_option autoImplicit false

namespace Residual.Grammar

open Memo

variable {before grammar : Grammar} {id : ExprId} {limit : Nat}

namespace Coherent

variable (coherent : grammar.Coherent) (limited : limit ≤ grammar.arena.size)
  (normal : grammar.Normal limit) (distinguishes : grammar.Distinguishes limit)
  (closed : grammar.arena.Closed id)
  (clean : ¬ grammar.arena.Patched limit (grammar.arena.resolve id))

include coherent limited normal distinguishes closed clean

/-- An expression to which no rule applies is answered with itself. -/
theorem simplify_irreducible (irreducible : (grammar.arena.tree id).Irreducible) :
    Gives (Grammar.simplify id) grammar fun value _ => value = grammar.arena.resolve id := by
  have inside := closed.lt_size
  refine ((coherent.simplify inside).and (coherent.simplify_learns inside)).mono ?_
  rintro value after ⟨⟨normalizes, _⟩, learns⟩
  obtain ⟨retains, normal, tells⟩ := learns limit limited normal
  have isClosed := closed.resolve
  have sameTree : after.arena.tree (grammar.arena.resolve id) = grammar.arena.tree id :=
    (retains.tree_eq isClosed).trans closed.tree_resolve
  have advances := normalizes.advances
  refine eq_of_irreducible normal advances.coherent.equalities
    (advances.distinguishes limit limited distinguishes) ?_ (tells closed).told
    (retains.closed isClosed) fun patched => clean (isClosed.patched_grows retains.grows patched)
  rwa [sameTree]

/-- Rounds that end before they run out leave an expression to which no rule applies. -/
theorem simplifyWithin_irreducible (passes : Nat) :
    Gives (Grammar.simplifyWithin id 0 passes) grammar fun result after =>
      after.Normal limit ∧ (result.stableAfter ≠ none →
        after.Inherits (grammar.arena.resolve id) result.expr ∧
          (after.arena.tree result.expr).Irreducible) := by
  refine ((coherent.simplifyWithin closed.lt_size passes 0).and
    (coherent.converges limited normal closed passes 0)).mono ?_
  rintro result after ⟨⟨normalizes, _⟩, converges⟩
  refine ⟨converges.normal, fun isStable => ?_⟩
  obtain ⟨x, inherits, told, same⟩ := converges.stable isStable
  have advances := normalizes.advances
  have simplified := tree_simplified converges.normal advances.coherent.equalities
    (advances.distinguishes limit limited distinguishes) told inherits.closed fun patched =>
      clean (closed.resolve.patched_grows converges.retains.grows (inherits.clean patched))
  have entry := converges.normal.entry told inherits.closed
  refine ⟨inherits.trans entry.toInherits, Tree.simplify_eq_self_iff.mp ?_⟩
  rw [← same]
  exact simplified.symm.trans same.symm

/-- So does a canonicalization without a warning, and one more round changes nothing. -/
theorem canonicalize_irreducible (canonicalizes : grammar.Canonicalizes id) :
    Gives (Grammar.canonicalize id) grammar fun value after =>
      after.arena.Closed value ∧ (after.arena.tree value).Irreducible ∧
        Gives (Grammar.simplify value) after fun again _ => again = after.arena.resolve value := by
  have rounds : Gives (Grammar.simplifyWithin id 0 grammar.config.simplify.maxPasses) grammar
      fun result between => grammar.Advances between ∧ between.Normal limit ∧
        between.Inherits (grammar.arena.resolve id) result.expr ∧
          (between.arena.tree result.expr).Irreducible := by
    obtain ⟨normalizes, _⟩ :=
      coherent.simplifyWithin closed.lt_size grammar.config.simplify.maxPasses 0
    obtain ⟨normal, ends⟩ := coherent.simplifyWithin_irreducible limited normal distinguishes
      closed clean grammar.config.simplify.maxPasses
    exact ⟨normalizes.advances, normal, ends canonicalizes⟩
  refine (gives_bind _ _ _).mpr ((gives_get _).mpr ?_)
  refine (gives_bind _ _ _).mpr (rounds.mono ?_)
  rintro ⟨value, stableAfter⟩ between ⟨advances, normal, inherits, irreducible⟩
  have wellFormed := advances.coherent.wellFormed
  have isClean : ¬ between.arena.Patched limit (between.arena.resolve value) := by
    rw [inherits.resolved]
    exact fun patched =>
      clean (closed.resolve.patched_grows advances.extending.grows (inherits.clean patched))
  have noted : ∀ journal : Journal, Gives (Grammar.simplify value) { between with journal }
      fun again _ => again = between.arena.resolve value := by
    intro journal
    have reported := advances.coherent.advances_journal journal
    have limited' := limited.trans advances.extending.grows.size_le
    have distinguishes := advances.distinguishes limit limited distinguishes
    exact reported.coherent.simplify_irreducible limited' (reported.normal limit limited' normal)
      (reported.distinguishes limit limited' distinguishes) inherits.closed isClean irreducible
  split
  all_goals exact ⟨inherits.closed, irreducible, noted _⟩

end Coherent

/-- Whatever was asked since the tables were emptied, no rule applies anywhere in what an expression
without cycles and undefined references became without a warning, and its simplified form is what it
stands for, if none of the links below the expression was bound since then. -/
theorem irreducible_of_canonicalizes (reachable : before.Reachable)
    (evolves : before.clearTables.Evolves grammar) (inside : id.number < grammar.arena.size)
    (acyclic : grammar.arena.Acyclic id) (defined : grammar.arena.Defined id)
    (clean : ¬ grammar.arena.Patched before.arena.size (grammar.arena.resolve id))
    (canonicalizes : grammar.Canonicalizes id) :
    let (value, after) := canonicalize id grammar
    ∃ tree, after.arena.Unfolds ∅ value tree ∧ tree.Irreducible ∧
      (simplify value after).1 = after.arena.resolve value := by
  have grows := reachable.coherent.clearTables.coherent.evolves evolves
  have closed := grows.coherent.wellFormed.closed_of_acyclic inside acyclic defined
  have normal : before.clearTables.Normal before.arena.size := .of_empty rfl ⟨_, rfl⟩
  obtain ⟨isClosed, irreducible, again⟩ := grows.coherent.canonicalize_irreducible
    grows.arena.size_le (grows.normal _ le_rfl normal) (grows.distinguishes _ le_rfl (.empty _ _ _))
    closed clean canonicalizes
  exact ⟨_, isClosed.unfolds.of_univ, irreducible, again⟩

theorem unionOnTheLeft_canonicalizes : unionOnTheLeft.Canonicalizes ⟨7⟩ := by
  have coherent := unionOnTheLeft_reachable.coherent
  have closed := coherent.wellFormed.closed_of_acyclic (by decide) unionOnTheLeft_acyclic
    unionOnTheLeft_defined
  have fresh : unionOnTheLeft.Normal 0 := .of_empty rfl ⟨_, rfl⟩
  exact coherent.canonicalizes (Nat.zero_le _) fresh closed
    (roundBound_unionOnTheLeft closed.unfolds.of_univ)

theorem irreducible_of_canonicalizes_unionOnTheLeft :
    let (value, after) := canonicalize ⟨7⟩ unionOnTheLeft
    ∃ tree, after.arena.Unfolds ∅ value tree ∧ tree.Irreducible ∧
      (simplify value after).1 = after.arena.resolve value := by
  have same : unionOnTheLeft.clearTables = unionOnTheLeft := rfl
  exact irreducible_of_canonicalizes unionOnTheLeft_reachable (same ▸ .refl) (by decide)
    unionOnTheLeft_acyclic unionOnTheLeft_defined Arena.not_patched_size
    unionOnTheLeft_canonicalizes

end Residual.Grammar
