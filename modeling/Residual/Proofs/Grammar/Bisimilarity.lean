import Mathlib.Data.Finset.Powerset
import Residual.Proofs.Grammar.Reachable

/-!
# Equality is bisimilarity

Two expressions differ if a difference is found after some steps, and there are no more steps than
pairs of slots.  If the passes are not capped below that number, every value of the equality table
is right, whatever was asked before: two expressions are equal if and only if they are bisimilar.
-/

set_option autoImplicit false

namespace Residual

open Memo

namespace Arena

variable {arena : Arena} {x y : ExprId} {pair : ExprId × ExprId} {steps : Nat}

theorem Corresponds.symm {Related : ExprId → ExprId → Prop}
    (corresponds : arena.Corresponds Related x y) :
    arena.Corresponds (fun o o' => Related o' o) y x := by
  obtain ⟨e, e', found, found', sameShape, operands⟩ := corresponds
  exact ⟨e', e, found', found, sameShape.symm, operands.flip⟩

theorem bisimilar_resolve (wellFormed : arena.WellFormed) :
    arena.Bisimilar (arena.resolve x) (arena.resolve y) ↔ arena.Bisimilar x y := by
  unfold Bisimilar
  rw [wellFormed.resolve_resolve, wellFormed.resolve_resolve]

/-! ## Differences -/

/-- The pairs of resolved numbers in the order of `unorderedPair`. -/
def orderedPairs (arena : Arena) : Finset (ExprId × ExprId) :=
  arena.pairs.filter fun pair => pair.1.number ≤ pair.2.number

/-- The ordered pairs of numbers that are not the same. -/
def distinctPairs (arena : Arena) : Finset (ExprId × ExprId) :=
  arena.pairs.filter fun pair => pair.1.number < pair.2.number

theorem mem_orderedPairs :
    pair ∈ arena.orderedPairs ↔ pair ∈ arena.pairs ∧ pair.1.number ≤ pair.2.number :=
  Finset.mem_filter

theorem unorderedPair_mem_orderedPairs (inPairs : unorderedPair x y ∈ arena.pairs) :
    unorderedPair x y ∈ arena.orderedPairs := by
  refine mem_orderedPairs.mpr ⟨inPairs, ?_⟩
  unfold unorderedPair
  split
  · assumption
  · rename_i unordered
    exact Nat.le_of_not_le unordered

theorem mem_distinctPairs :
    pair ∈ arena.distinctPairs ↔ pair ∈ arena.pairs ∧ pair.1.number < pair.2.number :=
  Finset.mem_filter

theorem unorderedPair_mem_distinctPairs (inPairs : unorderedPair x y ∈ arena.pairs)
    (distinct : x ≠ y) : unorderedPair x y ∈ arena.distinctPairs := by
  refine mem_distinctPairs.mpr ⟨inPairs, ?_⟩
  obtain ⟨x⟩ := x
  obtain ⟨y⟩ := y
  have distinct : x ≠ y := fun same => distinct (same ▸ rfl)
  unfold unorderedPair
  split
  · rename_i ordered
    exact Nat.lt_of_le_of_ne ordered distinct
  · rename_i unordered
    exact Nat.lt_of_not_le unordered

/-- There are as many distinct pairs as there are sets of two slots, at most. -/
theorem card_distinctPairs_le (arena : Arena) :
    arena.distinctPairs.card ≤ arena.size.choose 2 := by
  rw [← Finset.card_range arena.size, ← Finset.card_powersetCard]
  refine Finset.card_le_card_of_injOn (fun pair => {pair.1.number, pair.2.number}) ?_ ?_
  · intro pair member
    obtain ⟨inPairs, ordered⟩ := mem_distinctPairs.mp member
    obtain ⟨⟨inside, inside'⟩, _⟩ := mem_pairs.mp inPairs
    rw [Finset.mem_coe, Finset.mem_powersetCard]
    refine ⟨?_, Finset.card_pair ordered.ne⟩
    intro number isMember
    rcases Finset.mem_insert.mp isMember with rfl | isMember
    · exact Finset.mem_range.mpr inside
    · rw [Finset.mem_singleton.mp isMember]
      exact Finset.mem_range.mpr inside'
  · rintro ⟨⟨a⟩, ⟨b⟩⟩ member ⟨⟨a'⟩, ⟨b'⟩⟩ member' same
    have ordered : a < b := (mem_distinctPairs.mp member).2
    have ordered' : a' < b' := (mem_distinctPairs.mp member').2
    have same : ({a, b} : Finset Nat) = {a', b'} := same
    have inSame : ∀ n, (n = a ∨ n = b) ↔ (n = a' ∨ n = b') := fun n => by
      simpa using Finset.ext_iff.mp same n
    obtain ⟨rfl, rfl⟩ : a = a' ∧ b = b' := by
      have := (inSame a).mp (.inl rfl)
      have := (inSame b).mp (.inr rfl)
      have := (inSame a').mpr (.inl rfl)
      have := (inSame b').mpr (.inr rfl)
      omega
    rfl

/-- The pairs that are not of the same operator on operands that are not known to differ. -/
def differStep (arena : Arena) : Set (ExprId × ExprId) →o Set (ExprId × ExprId) where
  toFun known := {pair | pair ∈ arena.distinctPairs ∧
    ¬ arena.Corresponds (fun o o' => unorderedPair o o' ∉ known) pair.1 pair.2}
  monotone' _ _ below _ member :=
    ⟨member.1, fun corresponds => member.2 (corresponds.mono fun _ _ unknown known =>
      unknown (below known))⟩

/-- The pairs that are known to differ after some steps. -/
def differWithin (arena : Arena) (steps : Nat) : Set (ExprId × ExprId) :=
  arena.differStep^[steps] ⊥

theorem differWithin_succ (steps : Nat) :
    arena.differWithin (steps + 1) = arena.differStep (arena.differWithin steps) :=
  Function.iterate_succ_apply' arena.differStep steps ⊥

theorem differWithin_mono {steps later : Nat} (fewer : steps ≤ later) :
    arena.differWithin steps ⊆ arena.differWithin later :=
  arena.differStep.monotone.monotone_iterate_of_le_map bot_le fewer

section Differences

variable (wellFormed : arena.WellFormed)

include wellFormed

theorem unorderedPair_mem_pairs_of_child {o o' : ExprId} (child : arena.Child x o)
    (child' : arena.Child y o') : unorderedPair o o' ∈ arena.pairs := by
  obtain ⟨z, member, rfl⟩ := mem_operands_iff.mp child
  obtain ⟨z', member', rfl⟩ := mem_operands_iff.mp child'
  exact unorderedPair_mem_pairs wellFormed (wellFormed.operand_lt_of_get member)
    (wellFormed.operand_lt_of_get member')

/-- No bisimulation relates what is known to differ. -/
theorem not_bisimilar_of_differWithin (differ : pair ∈ arena.differWithin steps) :
    ¬ arena.Bisimilar pair.1 pair.2 := by
  induction steps generalizing pair with
  | zero => exact differ.elim
  | succ steps inductionHypothesis =>
      intro bisimilar
      rw [differWithin_succ] at differ
      obtain ⟨isDistinct, notCorresponds⟩ := differ
      obtain ⟨inPairs, ordered⟩ := mem_distinctPairs.mp isDistinct
      obtain ⟨_, resolved, resolved'⟩ := mem_pairs.mp inPairs
      have cases := bisimilar.cases wellFormed
      rw [resolved, resolved'] at cases
      rcases cases with same | corresponds
      · exact absurd (congrArg ExprId.number same) ordered.ne
      · refine notCorresponds (corresponds.mono fun o o' bisimilar known => ?_)
        exact inductionHypothesis known (bisimilar_unorderedPair.mpr bisimilar)

/-- What is not known to differ after as many steps as there are pairs is bisimilar. -/
theorem bisimilar_of_not_differWithin (enough : arena.size.choose 2 ≤ steps)
    (isOrdered : pair ∈ arena.orderedPairs) (same : pair ∉ arena.differWithin steps) :
    arena.Bisimilar pair.1 pair.2 := by
  let Same : ExprId → ExprId → Prop := fun x y =>
    x = y ∨ (unorderedPair x y ∈ arena.pairs ∧ unorderedPair x y ∉ arena.differStep.lfp)
  have symm : ∀ {x y}, Same x y → Same y x := fun {x y} same =>
    same.imp Eq.symm fun both => by rwa [unorderedPair_comm y x]
  have closed := arena.differStep.map_lfp
  have step : ∀ {x y}, (x, y) ∈ arena.distinctPairs → (x, y) ∉ arena.differStep.lfp →
      arena.Corresponds Same x y := by
    intro x y isDistinct unknown
    rw [← closed] at unknown
    have corresponds := not_not.mp fun notCorresponds => unknown ⟨isDistinct, notCorresponds⟩
    refine corresponds.with_child.mono fun o o' ⟨child, child', unknown⟩ => .inr ⟨?_, unknown⟩
    exact unorderedPair_mem_pairs_of_child wellFormed child child'
  have bisimulation : arena.IsBisimulation Same := by
    refine .intro fun x y related => ?_
    by_cases isSame : x = y
    · exact .inl isSame
    · obtain ⟨inPairs, unknown⟩ := related.resolve_left isSame
      have isDistinct := unorderedPair_mem_distinctPairs inPairs isSame
      rcases unorderedPair_cases x y with order | order
      · rw [order] at isDistinct unknown
        exact .inr (step isDistinct unknown)
      · rw [order] at isDistinct unknown
        exact .inr ((step isDistinct unknown).symm.mono fun _ _ => symm)
  obtain ⟨inPairs, ordered⟩ := mem_orderedPairs.mp isOrdered
  obtain ⟨_, resolved, resolved'⟩ := mem_pairs.mp inPairs
  refine ⟨Same, bisimulation, .inr ?_⟩
  rw [resolved, resolved', show unorderedPair pair.1 pair.2 = pair from if_pos ordered]
  refine ⟨inPairs, fun known => same (differWithin_mono (arena.card_distinctPairs_le.trans enough) ?_)⟩
  exact lfp_le_iterate_card arena.differStep arena.distinctPairs (fun _ _ member => member.1) known

end Differences

/-! ## Equations -/

/-- The equality equations of an arena, with values that call no bisimilar pair different. -/
def bisimilaritySystem (arena : Arena) (wellFormed : arena.WellFormed) :
    EquationSystem (ExprId × ExprId) Bool where
  equation := arena.equalityEquation
  bottom := fun _ => true
  keys := arena.orderedPairs
  Asks pair other := (arena.equalityEquation pair).Needs other
  Bound pair value := arena.Bisimilar pair.1 pair.2 → value = true
  asks pair _ := by
    refine (equalityEquation_asks wellFormed pair).mono ?_
    rintro other ⟨⟨needs, o, o', _, _, rfl⟩, inPairs⟩
    exact ⟨needs, unorderedPair_mem_orderedPairs inPairs⟩
  bottom_bound _ _ _ _ := rfl
  equation_bound pair inKeys value answers bisimilar := by
    obtain ⟨_, resolved, resolved'⟩ := mem_pairs.mp (mem_orderedPairs.mp inKeys).1
    have same := bisimilar.cases wellFormed
    rw [resolved, resolved'] at same
    refine true_of_answers (same.imp_right fun corresponds => corresponds.mono ?_) answers
    exact fun o o' bisimilar told bound => bound (bisimilar_unorderedPair.mpr bisimilar)

/-! ## Tables -/

/-- The settled values of an equality table tell which pairs are bisimilar. -/
structure EqualityExact (arena : Arena) (maxPasses : Nat) (table : Table (ExprId × ExprId) Bool) :
    Prop where
  idle : ∀ pair : ExprId × ExprId, table.pending[pair]? = none
  strategy_eq : table.strategy = .iterate maxPasses
  exact : ∀ {pair : ExprId × ExprId} {value : Bool}, table.settled[pair]? = some value →
    (value = true ↔ arena.Bisimilar pair.1 pair.2)

theorem EqualityExact.empty (maxPasses : Nat) :
    arena.EqualityExact maxPasses (.empty (.iterate maxPasses)) :=
  ⟨by simp, rfl, by simp⟩

/-- Every pass finds the differences that one more step finds. -/
theorem EqualityExact.rising {maxPasses : Nat} {base : Table (ExprId × ExprId) Bool}
    (wellFormed : arena.WellFormed) (isExact : arena.EqualityExact maxPasses base) :
    (arena.bisimilaritySystem wellFormed).Rising base fun steps pair value =>
      pair ∈ arena.differWithin steps → value = false where
  zero := fun _ _ member => member.elim
  weaken := fun above member => above (differWithin_mono (Nat.le_succ _) member)
  settled := fun {pair value} found _ member => by
    have different := not_bisimilar_of_differWithin wellFormed member
    rw [← isExact.exact found] at different
    exact Bool.eq_false_iff.mpr different
  step := by
    intro steps pair value inKeys answers member
    rw [differWithin_succ] at member
    by_contra isTrue
    obtain rfl := Bool.eq_true_of_not_eq_false isTrue
    rcases matched_of_answers wellFormed (mem_orderedPairs.mp inKeys).1 answers with
      same | ⟨e, e', found, found', sameShape, operands⟩
    · exact absurd (congrArg ExprId.number same) (mem_distinctPairs.mp member.1).2.ne
    · exact member.2 ⟨e, e', found, found', sameShape,
        operands.imp fun _ _ above known => absurd (above known) (by simp)⟩

/-- An evaluation keeps the values exact. -/
theorem EqualityExact.of_settles {maxPasses : Nat} {base final : Table (ExprId × ExprId) Bool}
    {root : ExprId × ExprId} {value : Bool} (wellFormed : arena.WellFormed)
    (enough : arena.size.choose 2 < maxPasses) (isExact : arena.EqualityExact maxPasses base)
    (settles : (arena.bisimilaritySystem wellFormed).Settles base root value final) :
    arena.EqualityExact maxPasses final where
  idle := settles.idle
  strategy_eq := settles.strategy_eq.trans isExact.strategy_eq
  exact {pair value} found := by
    rcases settles.new found with wasThere | ⟨inKeys, bound, _⟩
    · exact isExact.exact wasThere
    · refine ⟨?_, bound⟩
      rintro rfl
      have passes : base.strategy.repetitions + 1 = maxPasses := by
        rw [isExact.strategy_eq]
        exact Nat.sub_add_cancel (Nat.one_le_of_lt enough)
      have above := settles.approximates (isExact.rising wellFormed) found
      rw [passes] at above
      exact bisimilar_of_not_differWithin wellFormed enough.le inKeys fun known =>
        absurd (above known) (by simp)

end Arena

namespace Grammar

variable {grammar : Grammar} {x y : ExprId} {maxPasses : Nat}

/-- Equality answers bisimilarity from a table with exact values, and keeps them exact. -/
theorem gives_equal (wellFormed : grammar.arena.WellFormed)
    (enough : grammar.arena.size.choose 2 < maxPasses)
    (isExact : grammar.arena.EqualityExact maxPasses grammar.tables.equalities)
    (inside : x.number < grammar.arena.size) (inside' : y.number < grammar.arena.size) :
    Gives (equal x y) grammar fun value after => (value = true ↔ grammar.arena.Bisimilar x y) ∧
      after.arena = grammar.arena ∧ after.config = grammar.config ∧
        grammar.arena.EqualityExact maxPasses after.tables.equalities := by
  have inPairs := Arena.unorderedPair_mem_pairs wellFormed inside inside'
  have fewer : grammar.arena.orderedPairs.card < grammar.arena.size * grammar.arena.size + 1 :=
    Nat.lt_succ_of_le ((Finset.card_filter_le _ _).trans grammar.arena.card_pairs_le)
  have isStatic : (grammar.arena.bisimilaritySystem wellFormed).IsStatic := fun _ _ _ asks => asks
  refine Eval.Yields.settle ?_ true
  unfold computeEqual
  simp only [Eval.yields_bind, Eval.yields_get]
  refine (yields_analysis_static equalities_isField (fun _ _ => rfl) rfl isStatic
    (fun found => (isExact.exact found).mpr) isExact.idle
    (Arena.unorderedPair_mem_orderedPairs inPairs) fewer).mono ?_
  rintro value after ⟨aside, settles⟩
  have isExact' := isExact.of_settles wellFormed enough settles
  refine ⟨?_, aside.arena, aside.config, isExact'⟩
  rw [isExact'.exact settles.answered, Arena.bisimilar_unorderedPair,
    Arena.bisimilar_resolve wellFormed]

/-- What is left of a grammar after it was asked whether some pairs are equal. -/
def askEqual (pairs : List (ExprId × ExprId)) (grammar : Grammar) : Grammar :=
  pairs.foldl (fun grammar pair => (equal pair.1 pair.2 grammar).2) grammar

theorem askEqual_exact (wellFormed : grammar.arena.WellFormed)
    (enough : grammar.arena.size.choose 2 < maxPasses)
    (isExact : grammar.arena.EqualityExact maxPasses grammar.tables.equalities)
    {pairs : List (ExprId × ExprId)} (inside : ∀ pair ∈ pairs,
      pair.1.number < grammar.arena.size ∧ pair.2.number < grammar.arena.size) :
    (askEqual pairs grammar).arena = grammar.arena ∧
      grammar.arena.EqualityExact maxPasses (askEqual pairs grammar).tables.equalities := by
  induction pairs generalizing grammar with
  | nil => exact ⟨rfl, isExact⟩
  | cons pair pairs inductionHypothesis =>
      obtain ⟨here, here'⟩ := inside pair (by simp)
      obtain ⟨_, arena, _, isExact⟩ := gives_equal wellFormed enough isExact here here'
      rw [← arena] at wellFormed enough isExact inside ⊢
      exact inductionHypothesis wellFormed enough isExact
        fun pair member => inside pair (by simp [member])

/-- The two expressions are called equal when some pairs were asked before, starting from empty
tables. -/
def EqualAfter (grammar : Grammar) (pairs : List (ExprId × ExprId)) (x y : ExprId) : Prop :=
  (equal x y (askEqual pairs grammar.clearTables)).1 = true

/-- Whatever was asked before, two expressions are called equal if and only if they are bisimilar.
Therefore being called equal is an equivalence, it holds between unrollings of one rule, and
expressions without complements that are called equal have the same language. -/
theorem equal_iff_bisimilar (wellFormed : grammar.arena.WellFormed)
    (enough : grammar.arena.size.choose 2 < grammar.config.fixpoint.maxPasses)
    {pairs : List (ExprId × ExprId)} (inside : ∀ pair ∈ pairs,
      pair.1.number < grammar.arena.size ∧ pair.2.number < grammar.arena.size) :
    (∀ x y, x.number < grammar.arena.size → y.number < grammar.arena.size →
      (grammar.EqualAfter pairs x y ↔ grammar.arena.Bisimilar x y)) ∧
    Equivalence (fun x y : {id : ExprId // id.number < grammar.arena.size} =>
      grammar.EqualAfter pairs x y) ∧
    (∀ x y rule, x.number < grammar.arena.size → y.number < grammar.arena.size →
      grammar.arena.Unrolls x rule → grammar.arena.Unrolls y rule →
        grammar.EqualAfter pairs x y) ∧
    ∀ x y, x.number < grammar.arena.size → y.number < grammar.arena.size →
      grammar.EqualAfter pairs x y → grammar.arena.ComplementFree x → ∀ lang,
        (grammar.arena.Generates x lang ↔ grammar.arena.Generates y lang) := by
  have cleared : grammar.clearTables.arena.WellFormed := wellFormed
  obtain ⟨arena, isExact⟩ := askEqual_exact cleared enough
    (.empty grammar.config.fixpoint.maxPasses) inside
  have answers : ∀ x y, x.number < grammar.arena.size → y.number < grammar.arena.size →
      (grammar.EqualAfter pairs x y ↔ grammar.arena.Bisimilar x y) := by
    intro x y inside inside'
    change _ = grammar.arena at arena
    rw [← arena] at wellFormed enough inside inside' ⊢
    change grammar.arena.EqualityExact _ _ at isExact
    rw [← arena] at isExact
    exact (gives_equal wellFormed enough isExact inside inside').1
  refine ⟨answers, ⟨?_, ?_, ?_⟩, ?_, ?_⟩
  · intro x
    exact (answers x x x.2 x.2).mpr (.refl _ _)
  · intro x y equal
    exact (answers y x y.2 x.2).mpr ((answers x y x.2 y.2).mp equal).symm
  · intro x y z first second
    have first := (answers x y x.2 y.2).mp first
    exact (answers x z x.2 z.2).mpr (first.trans ((answers y z y.2 z.2).mp second))
  · intro x y rule inside inside' unrolls unrolls'
    exact (answers x y inside inside').mpr
      ((Arena.Bisimilar.of_unrolls unrolls).trans (Arena.Bisimilar.of_unrolls unrolls').symm)
  · intro x y inside inside' equal free lang
    exact ((answers x y inside inside').mp equal).generates_iff wellFormed free lang

/-- The grammar of two rules `X = X{0}` that are written down separately.  Their references are the
expressions with the numbers three and five. -/
def copiedRepetition : Grammar :=
  let rule := recursive fun link => rep (.expr link) (.finite 0)
  (rule (rule (ofConfig {})).2).2

theorem copiedRepetition_reachable : copiedRepetition.Reachable := by
  have first : (ofConfig {}).Evolves
      (recursive (fun link => rep (.expr link) (.finite 0)) (ofConfig {})).2 :=
    .call (.tie ⟨3⟩ ⟨4⟩) (.call (.rep (.expr ⟨3⟩) (.finite 0)) (.call .declare .refl nofun)
      (by decide)) (by decide)
  exact ⟨{}, .call (.tie ⟨5⟩ ⟨6⟩) (.call (.rep (.expr ⟨5⟩) (.finite 0)) (.call .declare first nofun)
    (by decide)) (by decide)⟩

theorem copiedRepetition_unrolls : copiedRepetition.arena.Unrolls ⟨5⟩ ⟨3⟩ := by
  refine ⟨fun id => if id = ⟨6⟩ then ⟨4⟩ else id, rfl, fun z _ => ?_⟩
  by_cases copied : z = ⟨6⟩
  · subst copied
    exact .inr ⟨.rep ⟨5⟩ (.finite 0), .rep ⟨3⟩ (.finite 0), rfl, rfl, rfl, .cons rfl .nil⟩
  · exact .inl (if_neg copied).symm

theorem equal_iff_bisimilar_copies : copiedRepetition.EqualAfter [(⟨5⟩, .empty)] ⟨3⟩ ⟨5⟩ := by
  have inside : ∀ pair ∈ [((⟨5⟩ : ExprId), ExprId.empty)],
      pair.1.number < copiedRepetition.arena.size ∧ pair.2.number < copiedRepetition.arena.size := by
    decide
  obtain ⟨_, _, unrollings, _⟩ :=
    equal_iff_bisimilar copiedRepetition_reachable.coherent.wellFormed (by decide) inside
  exact unrollings ⟨3⟩ ⟨5⟩ ⟨3⟩ (by decide) (by decide) (.refl _ _) copiedRepetition_unrolls

end Grammar

end Residual
