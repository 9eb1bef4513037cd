import Residual.Proofs.Arena.Search
import Residual.Proofs.Grammar.NormalForm.Warnings
import Residual.Proofs.Grammar.Reachable

/-!
# Canonicalization of closed expressions

A canonicalization simplifies in rounds.  An expression without cycles and undefined references is
stable after a number of rounds that depends on its tree alone, also where the heights and the
equalities that were asked for are out of date.
-/

set_option autoImplicit false

namespace Residual

open Memo

/-- After this many rounds the tree does not change any more. -/
def Tree.roundBound (tree : Tree) : Nat :=
  Rewriting.roundBound tree.mass

namespace Grammar

variable {grammar before between after : Grammar} {id next x y : ExprId} {limit passes done : Nat}
  {result : Simplified}

/-- What rounds of simplification leave behind, of a closed expression. -/
structure Converges (limit passes : Nat) (before : Grammar) (id : ExprId) (result : Simplified)
    (after : Grammar) : Prop where
  retains : before.Retains after
  normal : after.Normal limit
  /-- If the rounds ran out, then the expression changed in each of them. -/
  changes : result.stableAfter = none → ∀ k < passes,
    after.rewriting.Active (after.rewriting.next^[k] id) ∧
      ¬ after.rewriting.Fixed (after.rewriting.next^[k] id)
  /-- Otherwise the last round made an equal expression. -/
  stable : result.stableAfter ≠ none → ∃ x, after.Inherits id x ∧ after.SimplifiesTo x result.expr ∧
    after.arena.tree x = after.arena.tree result.expr

/-- An answer about equality is settled, and nothing else about closed expressions changes. -/
theorem Coherent.equal_settles (coherent : grammar.Coherent)
    (inside : x.number < grammar.arena.size) (inside' : y.number < grammar.arena.size) : Gives (Grammar.equal x y) grammar fun value after =>
      grammar.Advances after ∧ grammar.Retains after ∧
        after.tables.equalities.settled[Arena.unorderedPair (grammar.arena.resolve x)
          (grammar.arena.resolve y)]? = some value := by
  have settles := (yields_computeEqual coherent.wellFormed coherent.equalities inside
    inside').settle true
  refine ((coherent.equal inside inside').and settles).mono ?_
  rintro value after
    ⟨⟨advances, _⟩, ⟨equalities, tables, _, _, _, _, lasts, settled⟩, _, arena, _⟩
  refine ⟨advances, ?_⟩
  refine ⟨.of_heightens coherent.wellFormed arena ?_ ?_ fun told => ?_, ?_⟩
  · rw [tables]
    exact .refl coherent.heights
  · rwa [tables]
  · unfold SimplifiesTo
    rwa [tables]
  · rwa [tables]

/-- An expression is not different from itself. -/
theorem Coherent.ne_of_different (coherent : grammar.Coherent)
    (different : grammar.tables.equalities.settled[Arena.unorderedPair x y]? = some false) :
    x ≠ y := by
  rintro rfl
  unfold Arena.unorderedPair at different
  rw [if_pos le_rfl] at different
  cases coherent.equalities.reflexive different

/-- The first round is one more. -/
theorem Converges.step (first : before.Retains between) (tells : between.Tells id next)
    (closed : before.arena.Closed id) (different : id ≠ next)
    (inherits : between.Inherits id next)
    (converges : Converges limit passes between next result after) :
    Converges limit (passes + 1) before id result after := by
  have isClosed := first.closed closed
  have told : after.SimplifiesTo id next := converges.retains.told tells.told
  refine ⟨first.trans converges.retains, converges.normal, fun unstable k within => ?_, ?_⟩
  · cases k with
    | zero =>
        refine ⟨⟨converges.retains.closed isClosed, next, told⟩, fun fixed => different ?_⟩
        exact fixed.symm.trans (next_eq told)
    | succ k =>
        rw [Function.iterate_succ_apply, next_eq told]
        exact converges.changes unstable k (Nat.lt_of_succ_lt_succ within)
  · intro isStable
    obtain ⟨x, inherits', told, same⟩ := converges.stable isStable
    exact ⟨x, (converges.retains.inherits inherits).trans inherits', told, same⟩

/-- The rounds follow the simplified forms that are known in the end. -/
theorem Coherent.converges (coherent : grammar.Coherent) (limited : limit ≤ grammar.arena.size)
    (normal : grammar.Normal limit) (closed : grammar.arena.Closed id) (passes done : Nat) :
    Gives (Grammar.simplifyWithin id done passes) grammar fun result after =>
      Converges limit passes grammar (grammar.arena.resolve id) result after := by
  induction passes generalizing grammar id done with
  | zero =>
      exact ⟨.refl coherent.wellFormed, normal, fun _ _ within => absurd within (Nat.not_lt_zero _),
        fun isStable => absurd rfl isStable⟩
  | succ passes inductionHypothesis =>
      have inside := closed.lt_size
      refine (gives_bind _ _ _).mpr (((coherent.simplify inside).and
        (coherent.simplify_learns inside)).mono ?_)
      rintro next between ⟨⟨normalizes, _⟩, learns⟩
      obtain ⟨retains, normal, tells⟩ := learns limit limited normal
      have tells := tells closed
      have advances := normalizes.advances
      have closed_start := retains.closed closed.resolve
      have isResolved : between.arena.resolve id = grammar.arena.resolve id :=
        closed.resolve_grows retains.grows retains.wellFormed
      have inherits := (normal.entry tells.told closed_start).toInherits
      refine (gives_bind _ _ _).mpr ((advances.coherent.equal_settles
        (retains.closed closed).lt_size normalizes.inside).mono ?_)
      rintro isEqual later ⟨advances', retains', decided⟩
      rw [isResolved, tells.resolved] at decided
      have limited' := limited.trans advances.extending.grows.size_le
      have normal := advances'.normal limit limited' normal
      cases isEqual with
      | true =>
          have both := retains.trans retains'
          have isClosed := both.closed closed.resolve
          have resolved := (closed.resolve.resolve_grows both.grows both.wellFormed).trans
            (coherent.wellFormed.resolve_resolve id)
          have tells := retains'.tells tells
          exact ⟨both, normal, nofun, fun _ => ⟨_, .refl isClosed resolved, tells.told,
            tree_eq_of_equal advances'.coherent.equalities isClosed tells.closed resolved
              tells.resolved decided⟩⟩
      | false =>
          refine (inductionHypothesis advances'.coherent
            (limited'.trans advances'.extending.grows.size_le) normal
            (retains'.closed tells.closed) (done + 1)).mono fun result after converges => ?_
          have isNext := (retains'.inherits inherits).resolved
          rw [isNext] at converges
          exact converges.step (retains.trans retains') (retains'.tells tells) closed.resolve
            (advances'.coherent.ne_of_different decided) (retains'.inherits inherits)

/-- A canonicalization with enough rounds finds a closed expression stable. -/
theorem Coherent.canonicalizes (coherent : grammar.Coherent) (limited : limit ≤ grammar.arena.size)
    (normal : grammar.Normal limit) (closed : grammar.arena.Closed id)
    (enough : (grammar.arena.tree id).roundBound ≤ grammar.config.simplify.maxPasses) :
    grammar.Canonicalizes id := by
  intro unstable
  obtain ⟨retains, normal, changes, _⟩ :=
    coherent.converges limited normal closed grammar.config.simplify.maxPasses 0
  generalize (Grammar.simplifyWithin id 0 _ grammar).2 = after at retains normal changes
  have sameMass :
      after.rewriting.mass (grammar.arena.resolve id) = (grammar.arena.tree id).mass := by
    change (after.arena.tree _).mass = _
    rw [retains.tree_eq closed.resolve, closed.tree_resolve]
  have within : ∀ {k}, k < Rewriting.roundBound (grammar.arena.tree id).mass →
      k < grammar.config.simplify.maxPasses := fun less => less.trans_le enough
  obtain ⟨k, less, fixed⟩ := Rewriting.settling normal.lawful _ _ sameMass.le
    fun k less => (changes unstable k (within less)).1
  exact (changes unstable k (within less)).2 fixed

/-- Whatever was asked before, an expression without cycles and undefined references becomes
canonical without a warning, if as many rounds are allowed as its tree may need. -/
theorem canonicalizes_of_roundBound_le (reachable : grammar.Reachable)
    (inside : id.number < grammar.arena.size) (acyclic : grammar.arena.Acyclic id)
    (defined : grammar.arena.Defined id) : ∃ tree, grammar.arena.Unfolds ∅ id tree ∧
      (tree.roundBound ≤ grammar.config.simplify.maxPasses →
        grammar.Canonicalizes id ∧ grammar.Quiet (canonicalize id grammar).2) := by
  have coherent := reachable.coherent
  have closed := coherent.wellFormed.closed_of_acyclic inside acyclic defined
  refine ⟨_, closed.unfolds.of_univ, fun enough => ?_⟩
  obtain ⟨config, evolves⟩ := reachable
  have fresh : (ofConfig config).Normal 0 := .of_empty rfl ⟨_, rfl⟩
  have normal := ((Coherent.ofConfig config).evolves evolves).normal 0 (Nat.zero_le _) fresh
  have canonicalizes := coherent.canonicalizes (Nat.zero_le _) normal closed enough
  exact ⟨canonicalizes, (coherent.canonicalize_quiet inside).1 canonicalizes⟩

/-- The grammar of `(a | b) | a`, which is the expression with the number seven. -/
def unionOnTheLeft : Grammar :=
  (choice [.char 'a', .char 'b', .char 'a']
    (ofConfig { simplify := { maxPasses := 2000 } })).2

theorem unionOnTheLeft_reachable : unionOnTheLeft.Reachable :=
  ⟨_, .call (.choice [.char 'a', .char 'b', .char 'a']) .refl (by decide)⟩

theorem unionOnTheLeft_acyclic : unionOnTheLeft.arena.Acyclic ⟨7⟩ :=
  Arena.acyclic_of_forall (by decide)

theorem unionOnTheLeft_defined : unionOnTheLeft.arena.Defined ⟨7⟩ :=
  Arena.defined_of_forall (by decide)

/-- Two thousand rounds are more than enough for it. -/
theorem roundBound_unionOnTheLeft {tree : Tree}
    (unfolds : unionOnTheLeft.arena.Unfolds ∅ ⟨7⟩ tree) :
    tree.roundBound ≤ unionOnTheLeft.config.simplify.maxPasses := by
  have leaf : ∀ {id : ExprId} {c : Char} {tree : Tree},
      unionOnTheLeft.arena.slot? id = some (.expr (.char c)) →
      unionOnTheLeft.arena.Unfolds ∅ id tree → tree.mass = 1 := by
    intro id c tree found unfolds
    obtain ⟨_, _, rfl⟩ := unfolds.of_expr found
    rfl
  obtain ⟨trees, below, rfl⟩ := unfolds.of_expr (e := .alt ⟨5⟩ ⟨6⟩) rfl
  obtain ⟨trees', below', isUnion⟩ :=
    (below ⟨5⟩ (by decide)).of_expr (e := .alt ⟨3⟩ ⟨4⟩) rfl
  have mass : (trees ⟨5⟩).mass = 3 := by
    rw [isUnion, Tree.mass_node]
    change (trees' ⟨3⟩).mass + (trees' ⟨4⟩).mass + 1 = 3
    rw [leaf (c := 'a') rfl (below' _ (by decide)), leaf (c := 'b') rfl (below' _ (by decide))]
  have isMass : (Tree.node ((Expr.alt ⟨5⟩ ⟨6⟩).map trees)).mass = 5 := by
    rw [Tree.mass_node]
    change (trees ⟨5⟩).mass + (trees ⟨6⟩).mass + 1 = 5
    rw [mass, leaf (c := 'a') rfl (below _ (by decide))]
  unfold Tree.roundBound
  rw [isMass]
  decide

theorem canonicalizes_of_roundBound_le_unionOnTheLeft : unionOnTheLeft.Canonicalizes ⟨7⟩ ∧
    unionOnTheLeft.Quiet (canonicalize ⟨7⟩ unionOnTheLeft).2 := by
  obtain ⟨tree, unfolds, canonicalizes⟩ := canonicalizes_of_roundBound_le unionOnTheLeft_reachable
    (by decide) unionOnTheLeft_acyclic unionOnTheLeft_defined
  exact canonicalizes (roundBound_unionOnTheLeft unfolds)

end Grammar

end Residual
