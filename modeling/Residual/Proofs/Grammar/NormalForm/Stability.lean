import Residual.Proofs.Grammar.Bisimilarity
import Residual.Proofs.Grammar.NormalForm.Cycles

/-!
# Rounds on orderly expressions

A canonicalization simplifies and compares in rounds.  A bisimulation without trees is tolerated by the
comparisons: as long as none of its pairs is called different, none will be, and a pair that is
compared is called equal.

Rounds that go on for ever would come to such a bisimulation.  At some point no recurring expression is
lost any more, and from then on the rounds make a chain of copies of one graph, until the trees on its
rim have settled and the copies are too new for the tables to tell them from their originals.
-/

set_option autoImplicit false

namespace Residual

open Memo

namespace Arena

variable {arena before after : Arena} {Related : ExprId → ExprId → Prop} {x y : ExprId}

/-- What corresponds in a later arena did so before. -/
theorem Corresponds.of_extends (corresponds : after.Corresponds Related x y)
    (extending : before.Extends after) (wellFormed : before.WellFormed)
    (inside : x.number < before.size) (inside' : y.number < before.size) :
    before.Corresponds Related x y := by
  obtain ⟨e, e', found, found', sameShape, operands⟩ := corresponds
  rw [extending _ inside] at found
  rw [extending _ inside'] at found'
  refine ⟨e, e', found, found', sameShape, (forall₂_mem operands).imp ?_⟩
  rintro o o' ⟨member, member', related⟩
  rwa [extending.resolve wellFormed (wellFormed.operand_lt found o member),
    extending.resolve wellFormed (wellFormed.operand_lt found' o' member')] at related

/-- Of finitely many trees one is the largest. -/
theorem exists_mass_bound (arena : Arena) (size : Nat) :
    ∃ mass, ∀ id : ExprId, id.number < size → (arena.tree id).mass ≤ mass := by
  induction size with
  | zero => exact ⟨0, fun id inside => absurd inside (Nat.not_lt_zero id.number)⟩
  | succ size inductionHypothesis =>
      obtain ⟨mass, bounded⟩ := inductionHypothesis
      refine ⟨max mass (arena.tree ⟨size⟩).mass, fun id inside => ?_⟩
      rcases Nat.lt_succ_iff_lt_or_eq.mp inside with less | rfl
      · exact (bounded id less).trans (le_max_left ..)
      · exact le_max_right ..

/-- A pair is called equal if a bisimulation relates it, and if all pairs that it relates are. -/
theorem true_of_related {Holds : ExprId × ExprId → Bool → Prop} {value : Bool}
    (extending : before.Extends after) (wellFormed : before.WellFormed)
    (isBisimulation : after.IsBisimulation Related) (related : Related x y)
    (inPairs : unorderedPair x y ∈ before.pairs)
    (each : ∀ {o o' told}, Related o o' → Holds (unorderedPair o o') told → told = true)
    (answers : (before.equalityEquation (unorderedPair x y)).Answers Holds value) :
    value = true := by
  obtain ⟨⟨inside, inside'⟩, _⟩ := mem_pairs.mp inPairs
  have same := isBisimulation.cases related
  rcases unorderedPair_cases x y with order | order
  · rw [order] at inside inside' answers
    refine true_of_answers (same.imp_right fun corresponds => ?_) answers
    exact (corresponds.of_extends extending wellFormed inside inside').mono
      fun _ _ related _ => each related
  · rw [order] at inside inside' answers
    refine true_of_answers (same.imp Eq.symm fun corresponds => ?_) answers
    refine (corresponds.of_extends extending wellFormed inside' inside).symm.mono
      fun o o' related told => ?_
    rw [unorderedPair_comm]
    exact each related

/-- A bisimulation of recursive expressions, but for equal ones. -/
structure Family (arena : Arena) (Related : ExprId → ExprId → Prop) : Prop where
  isBisimulation : arena.IsBisimulation Related
  isOpen : ∀ {x y}, Related x y → x = y ∨ ¬ arena.Closed x ∧ ¬ arena.Closed y

open Classical in
theorem Extends.recurring_eq (extending : before.Extends after) (wellFormed : before.WellFormed)
    (wellFormed' : after.WellFormed) (inside : x.number < before.size) :
    after.recurring x = before.recurring x := by
  ext id
  rw [wellFormed.mem_recurring inside, wellFormed'.mem_recurring (extending.grows.lt_size inside),
    extending.reaches_iff wellFormed inside]
  refine and_congr_right fun reaches => not_congr ?_
  have isInside := wellFormed.reaches_lt inside reaches
  exact ⟨fun closed => closed.of_extends extending wellFormed isInside,
    fun closed => closed.grows extending.grows wellFormed'⟩

theorem Extends.leaning_eq (extending : before.Extends after) (wellFormed : before.WellFormed)
    (wellFormed' : after.WellFormed) (inside : x.number < before.size) :
    after.leaning x = before.leaning x := by
  ext id
  rw [mem_leaning, mem_leaning, extending.recurring_eq wellFormed wellFormed' inside]
  refine and_congr_right fun recurs => ?_
  have isInside := wellFormed.reaches_lt inside ((wellFormed.mem_recurring inside).mp recurs).1
  rw [extending _ isInside]
  refine exists_congr fun left => exists_congr fun right => and_congr_right fun found => ?_
  rw [extending.isLeaf_iff wellFormed (wellFormed.operand_lt found left (by simp [Expr.operands]))]

end Arena

namespace Grammar

variable {grammar before state after : Grammar} {final : Arena}
  {Related : ExprId → ExprId → Prop} {id next x y : ExprId} {same : Bool} {limit passes done : Nat}

/-! ## Comparisons -/

/-- No related pair is called different. -/
def Tolerates (grammar : Grammar) (Related : ExprId → ExprId → Prop) : Prop :=
  ∀ x y, Related x y →
    grammar.tables.equalities.settled[Arena.unorderedPair x y]? ≠ some false

/-- A comparison calls no pair different that a bisimulation relates, if none was before. -/
theorem yields_computeEqual_tolerates (wellFormed : state.arena.WellFormed)
    (idle : ∀ pair : ExprId × ExprId, state.tables.equalities.pending[pair]? = none)
    (extending : state.arena.Extends final) (isBisimulation : final.IsBisimulation Related)
    (tolerates : state.Tolerates Related) (inside : x.number < state.arena.size)
    (inside' : y.number < state.arena.size) :
    (computeEqual x y).Yields state fun value after => after.Tolerates Related ∧
      (Related (state.arena.resolve x) (state.arena.resolve y) → value = true) := by
  let system : EquationSystem (ExprId × ExprId) Bool :=
    { equation := state.arena.equalityEquation
      bottom := fun _ => true
      keys := state.arena.pairs
      Asks := fun _ _ => True
      Bound := fun pair value =>
        (∃ x y, Related x y ∧ Arena.unorderedPair x y = pair) → value = true
      asks := fun pair _ => (Arena.equalityEquation_asks wellFormed pair).mono
        fun _ ⟨_, inPairs⟩ => ⟨trivial, inPairs⟩
      bottom_bound := fun _ _ _ _ => rfl
      equation_bound := by
        rintro _ inKeys value answers ⟨x, y, related, rfl⟩
        exact Arena.true_of_related extending wellFormed isBisimulation related inKeys
          (fun related told => told ⟨_, _, related, rfl⟩) answers }
  have records : state.tables.equalities.Records system.Bound := by
    refine ⟨idle, fun {pair value} found => ?_⟩
    rintro ⟨x, y, related, rfl⟩
    refine Bool.eq_true_of_not_eq_false fun different => tolerates x y related ?_
    rw [found, different]
  unfold computeEqual
  simp only [Eval.yields_bind, Eval.yields_get]
  refine (yields_analysis_records equalities_isField system (fun _ _ => rfl) rfl records
    (Arena.unorderedPair_mem_pairs wellFormed inside inside')
    (Nat.lt_succ_of_le state.arena.card_pairs_le)).mono ?_
  rintro value after ⟨_, records, bound⟩
  exact ⟨fun _ _ related different => Bool.false_ne_true (records.right different ⟨_, _, related, rfl⟩),
    fun related => bound ⟨_, _, related, rfl⟩⟩

/-! ## One round -/

/-- Simplifies once, and tells whether nothing changed. -/
def round (id : ExprId) : StateM Grammar (Bool × ExprId) := do
  let next ← simplify id
  return (← equal id next, next)

/-- What a round finds out. -/
structure Round (before : Grammar) (id : ExprId) (same : Bool) (next : ExprId) (after : Grammar) :
    Prop where
  advances : before.Advances after
  retains : before.Retains after
  inside : next.number < after.arena.size
  defined : after.arena.Defined id → after.arena.Defined next
  reflects : after.Reflects (before.arena.resolve id) next
  tolerates : before.arena.Orderly (before.arena.resolve id) → ∀ final Related,
    after.arena.Extends final → final.WellFormed → final.Family Related → before.Tolerates Related →
      after.Tolerates Related ∧
        (Related (after.arena.resolve id) (after.arena.resolve next) → same = true)

/-- A simplification of an orderly expression calls no pair of recursive expressions different. -/
theorem SparesCycles.tolerates (sparesCycles : before.SparesCycles after) (coherent : after.Coherent)
    (extending : after.arena.Extends final) (wellFormed : final.WellFormed)
    (family : final.Family Related) (tolerates : before.Tolerates Related) : after.Tolerates Related := by
  intro x y related different
  have wasOpen : ∀ {z}, ¬ final.Closed z → ¬ after.arena.Closed z := fun isOpen closed =>
    isOpen (closed.grows extending.grows wellFormed)
  have distinct := coherent.ne_of_different different
  obtain ⟨isOpen, isOpen'⟩ := (family.isOpen related).resolve_left distinct
  rcases sparesCycles _ different with wasDifferent | hasTree
  · exact tolerates x y related wasDifferent
  · exact (hasTree_unorderedPair.mp hasTree).elim (wasOpen isOpen) (wasOpen isOpen')

theorem Coherent.round (coherent : grammar.Coherent) (limited : limit ≤ grammar.arena.size)
    (normal : grammar.Normal limit) (inside : id.number < grammar.arena.size) :
    Gives (Grammar.round id) grammar fun answer after =>
      Round grammar id answer.1 answer.2 after := by
  refine (gives_bind _ _ _).mpr (((coherent.simplify inside).and
    (coherent.simplify_learns inside)).mono ?_)
  rintro next between ⟨⟨normalizes, _⟩, learns⟩
  obtain ⟨retains, normal, _, ⟨target, told, isTarget⟩, sparesCycles⟩ := learns limit limited normal
  have advances := normalizes.advances
  have coherent' := advances.coherent
  have isInside := advances.lt_size inside
  have compares : Gives (Grammar.equal id next) between fun same after =>
      ∀ final Related, between.arena.Extends final → final.IsBisimulation Related →
        between.Tolerates Related → after.Tolerates Related ∧
          (Related (between.arena.resolve id) (between.arena.resolve next) → same = true) :=
    fun final Related extending isBisimulation tolerates =>
      (yields_computeEqual_tolerates coherent'.wellFormed coherent'.equalities.idle extending
        isBisimulation tolerates isInside normalizes.inside).settle true
  refine (gives_bind _ _ _).mpr (((coherent'.equal_settles isInside normalizes.inside).and
    compares).mono ?_)
  rintro same after ⟨⟨advances', retains', _⟩, compares⟩
  have wellFormed := coherent'.wellFormed
  have extending := advances'.extending
  rw [gives_pure]
  refine ⟨advances.trans advances', retains.trans retains', advances'.lt_size normalizes.inside,
    advances.defined_of_defined advances' normalizes.inside normalizes.defined,
    ⟨target, .inl (retains'.told told), ?_⟩, ?_⟩
  · have persists := extending.grows.resolve_resolve wellFormed advances'.coherent.wellFormed
    rw [← persists next, isTarget, persists target]
  · intro orderly final Related onward wellFormed' family tolerates
    rw [extending.resolve wellFormed isInside, extending.resolve wellFormed normalizes.inside]
    exact compares final Related (extending.trans onward) family.isBisimulation
      ((sparesCycles orderly).tolerates coherent' (extending.trans onward) wellFormed' family tolerates)

/-! ## Runs -/

/-- Where a run of rounds is: at an orderly expression of a grammar between two calls. -/
structure Position (limit : Nat) (place : ExprId × Grammar) : Prop where
  coherent : place.2.Coherent
  limited : limit ≤ place.2.arena.size
  normal : place.2.Normal limit
  distinguishes : place.2.Distinguishes limit
  inside : place.1.number < place.2.arena.size
  orderly : place.2.arena.Orderly (place.2.arena.resolve place.1)

/-- What the expression stands for. -/
def form (place : ExprId × Grammar) : ExprId :=
  place.2.arena.resolve place.1

/-- Where the next round begins. -/
def onward (place : ExprId × Grammar) : ExprId × Grammar :=
  let ((_, next), after) := round place.1 place.2
  (next, after)

/-- The next round finds a change. -/
def Changes (place : ExprId × Grammar) : Prop :=
  (round place.1 place.2).1.1 = false

theorem simplifyWithin_succ (place : ExprId × Grammar) (done passes : Nat) :
    simplifyWithin place.1 done (passes + 1) place.2 =
      if (round place.1 place.2).1.1 then (⟨(onward place).1, some (done + 1)⟩, (onward place).2)
      else simplifyWithin (onward place).1 (done + 1) passes (onward place).2 := by
  change (if (round place.1 place.2).1.1 then pure ⟨(onward place).1, some (done + 1)⟩
    else simplifyWithin (onward place).1 (done + 1) passes : StateM Grammar Simplified)
      (onward place).2 = _
  split <;> rfl

/-- If the rounds ran out, then there was a change in each of them. -/
theorem changes_of_unstable {place : ExprId × Grammar}
    (unstable : (simplifyWithin place.1 done passes place.2).1.stableAfter = none) :
    ∀ k < passes, Changes (onward^[k] place) := by
  induction passes generalizing place done with
  | zero => exact fun k less => absurd less (Nat.not_lt_zero k)
  | succ passes inductionHypothesis =>
      intro k less
      rw [simplifyWithin_succ] at unstable
      split at unstable
      · cases unstable
      · rename_i changed
        cases k with
        | zero => exact Bool.eq_false_iff.mpr changed
        | succ k => exact inductionHypothesis unstable k (Nat.lt_of_succ_lt_succ less)

theorem AtRest.of_coherent (coherent : grammar.Coherent) (normal : grammar.Normal limit) :
    grammar.AtRest limit where
  wellFormed := coherent.wellFormed
  normal := normal
  idle running := by cases (coherent.simplified.idle _).symm.trans running

namespace Position

variable {place : ExprId × Grammar} (position : Position limit place)

include position

theorem round : Round place.2 place.1 (Grammar.round place.1 place.2).1.1 (onward place).1
    (onward place).2 :=
  position.coherent.round position.limited position.normal position.inside

theorem resolve_onward : (onward place).2.arena.resolve (form place) = form place := by
  have wellFormed := position.coherent.wellFormed
  exact (position.round.advances.extending.resolve wellFormed
    (wellFormed.resolve_lt position.inside)).trans (wellFormed.resolve_resolve place.1)

theorem normal_onward : (onward place).2.Normal limit :=
  position.round.advances.normal limit position.limited position.normal

/-- A round leads to the simplified form. -/
theorem hasForm : (onward place).2.HasForm limit (form place) (form (onward place)) := by
  have wellFormed := position.coherent.wellFormed
  have round := position.round
  have atRest := AtRest.of_coherent round.advances.coherent position.normal_onward
  have inside := wellFormed.resolve_lt position.inside
  exact
    { atRest := atRest
      orderly := (round.advances.extending.orderly_iff wellFormed atRest.wellFormed inside).mpr
        position.orderly
      resolved := position.resolve_onward
      inside := round.advances.lt_size inside
      reflects := atRest.reflects_resolve round.reflects
      resolved' := atRest.wellFormed.resolve_resolve _
      inside' := atRest.wellFormed.resolve_lt round.inside }

protected theorem onward : Position limit (onward place) := by
  have round := position.round
  have wellFormed := position.coherent.wellFormed
  have wellFormed' := round.advances.coherent.wellFormed
  have defined : (onward place).2.arena.Defined place.1 :=
    (Arena.defined_congr (round.advances.extending.grows.resolve_resolve wellFormed wellFormed' _)).mp
      position.hasForm.orderly.defined
  exact
    { coherent := round.advances.coherent
      limited := position.limited.trans round.advances.extending.grows.size_le
      normal := position.normal_onward
      distinguishes := round.advances.distinguishes limit position.limited position.distinguishes
      inside := round.inside
      orderly := position.hasForm.orderly'
        ((Arena.defined_congr (wellFormed'.resolve_resolve _)).mpr (round.defined defined)) }

end Position

/-- What is the simplified form of an expression remains so. -/
theorem HasForm.later (hasForm : before.HasForm limit x y) (advances : before.Advances after)
    (retains : before.Retains after) (atRest : after.AtRest limit) : after.HasForm limit x y := by
  have wellFormed := hasForm.atRest.wellFormed
  have extending := advances.extending
  have carries := retains.carries wellFormed fun running => absurd running hasForm.atRest.idle
  exact
    { atRest := atRest
      orderly := (extending.orderly_iff wellFormed atRest.wellFormed hasForm.inside).mpr
        hasForm.orderly
      resolved := (extending.resolve wellFormed hasForm.inside).trans hasForm.resolved
      inside := advances.lt_size hasForm.inside
      reflects := carries.reflects hasForm.reflects
      resolved' := (extending.resolve wellFormed hasForm.inside').trans hasForm.resolved'
      inside' := advances.lt_size hasForm.inside' }

namespace Position

variable {start : ExprId × Grammar} (position : Position limit start)

include position

theorem iterate (k : Nat) : Position limit (onward^[k] start) := by
  induction k with
  | zero => exact position
  | succ k inductionHypothesis =>
      rw [Function.iterate_succ_apply']
      exact inductionHypothesis.onward

theorem atRest (k : Nat) : (onward^[k] start).2.AtRest limit :=
  .of_coherent (position.iterate k).coherent (position.iterate k).normal

theorem inside_form (k : Nat) :
    (form (onward^[k] start)).number < (onward^[k] start).2.arena.size :=
  (position.iterate k).coherent.wellFormed.resolve_lt (position.iterate k).inside

theorem later {k length : Nat} (within : k ≤ length) :
    (onward^[k] start).2.Advances (onward^[length] start).2 ∧
      (onward^[k] start).2.Retains (onward^[length] start).2 := by
  induction length, within using Nat.le_induction with
  | base =>
      have coherent := (position.iterate k).coherent
      exact ⟨coherent.advances_refl, .refl coherent.wellFormed⟩
  | succ length _ inductionHypothesis =>
      rw [Function.iterate_succ_apply']
      have round := (position.iterate length).round
      exact ⟨inductionHypothesis.1.trans round.advances, inductionHypothesis.2.trans round.retains⟩

/-- In the end all that the rounds led to is known. -/
theorem chain (length : Nat) :
    (onward^[length] start).2.Chain limit (fun k => form (onward^[k] start)) length := by
  intro k within
  obtain ⟨advances, retains⟩ := position.later (Nat.succ_le_of_lt within)
  have hasForm := (position.iterate k).hasForm
  rw [← Function.iterate_succ_apply' onward k start] at hasForm
  exact hasForm.later advances retains (position.atRest length)

theorem recurring_eq {k length : Nat} (within : k ≤ length) :
    (onward^[length] start).2.arena.recurring (form (onward^[k] start)) =
      (onward^[k] start).2.arena.recurring (form (onward^[k] start)) :=
  (position.later within).1.extending.recurring_eq (position.iterate k).coherent.wellFormed
    (position.iterate length).coherent.wellFormed (position.inside_form k)

theorem leaning_eq {k length : Nat} (within : k ≤ length) :
    (onward^[length] start).2.arena.leaning (form (onward^[k] start)) =
      (onward^[k] start).2.arena.leaning (form (onward^[k] start)) :=
  (position.later within).1.extending.leaning_eq (position.iterate k).coherent.wellFormed
    (position.iterate length).coherent.wellFormed (position.inside_form k)

/-- From some round on, no recurring expression is lost, and no operands are exchanged above a cycle. -/
theorem exists_lasting : ∃ first, ∀ k ≥ first,
    ((onward^[k + 1] start).2.arena.recurring (form (onward^[k + 1] start))).card =
        ((onward^[k] start).2.arena.recurring (form (onward^[k] start))).card ∧
      ((onward^[k + 1] start).2.arena.leaning (form (onward^[k + 1] start))).card =
        ((onward^[k] start).2.arena.leaning (form (onward^[k] start))).card := by
  let recurring : Nat → Nat := fun k =>
    ((onward^[k] start).2.arena.recurring (form (onward^[k] start))).card
  let leaning : Nat → Nat := fun k =>
    ((onward^[k] start).2.arena.leaning (form (onward^[k] start))).card
  have fewer : ∀ k, recurring (k + 1) ≤ recurring k ∧ leaning (k + 1) ≤ leaning k := fun k => by
    have hasForm := position.chain (k + 1) k (Nat.lt_succ_self k)
    have fewer := hasForm.card_recurring_le
    have fewer' := hasForm.card_leaning_le
    rw [position.recurring_eq (Nat.le_succ k)] at fewer
    rw [position.leaning_eq (Nat.le_succ k)] at fewer'
    exact ⟨fewer, fewer'⟩
  have falls : Antitone fun k => recurring k + leaning k :=
    antitone_nat_of_succ_le fun k => Nat.add_le_add (fewer k).1 (fewer k).2
  obtain ⟨_, ⟨first, rfl⟩, least⟩ :=
    wellFounded_lt.has_min (Set.range fun k => recurring k + leaning k) ⟨_, 0, rfl⟩
  have isLeast : ∀ k ≥ first, recurring k + leaning k = recurring first + leaning first :=
    fun k later => le_antisymm (falls later) (not_lt.mp (least _ ⟨k, rfl⟩))
  refine ⟨first, fun k later => ?_⟩
  have same := (isLeast (k + 1) (Nat.le_succ_of_le later)).trans (isLeast k later).symm
  have fewer := fewer k
  change recurring (k + 1) = recurring k ∧ leaning (k + 1) = leaning k
  omega

/-- A family that is tolerated in the beginning is tolerated in the end. -/
theorem tolerates {length : Nat}
    (family : (onward^[length] start).2.arena.Family Related) (begun : start.2.Tolerates Related)
    {k : Nat} (within : k ≤ length) : (onward^[k] start).2.Tolerates Related := by
  induction k with
  | zero => exact begun
  | succ k inductionHypothesis =>
      have place := position.iterate k
      have round := place.round
      have extending := (position.later within).1.extending
      have wellFormed := (position.iterate length).coherent.wellFormed
      rw [Function.iterate_succ_apply'] at extending ⊢
      exact (round.tolerates place.orderly _ _ extending wellFormed family
        (inductionHypothesis (Nat.le_of_succ_le within))).1

/-- What a family relates is not different. -/
theorem not_changes {length : Nat}
    (family : (onward^[length + 1] start).2.arena.Family Related)
    (begun : start.2.Tolerates Related)
    (related : Related (form (onward^[length] start)) (form (onward^[length + 1] start))) :
    ¬ Changes (onward^[length] start) := by
  have place := position.iterate length
  have tolerated := position.tolerates family begun (Nat.le_succ length)
  rw [Function.iterate_succ_apply'] at family related
  have wellFormed := place.onward.coherent.wellFormed
  have compared := (place.round.tolerates place.orderly _ _ (.refl _) wellFormed family tolerated).2
  have resolved : (onward (onward^[length] start)).2.arena.resolve (onward^[length] start).1 =
      form (onward^[length] start) :=
    place.round.advances.extending.resolve place.coherent.wellFormed place.inside
  rw [resolved] at compared
  exact Bool.eq_false_iff.not_left.mpr (compared related)

/-- The trees on the rim of an expression are no larger later than they were in its own round. -/
theorem mass_le {first length mass : Nat} (within : first ≤ length)
    (bounded : ∀ id : ExprId, id.number < (onward^[first] start).2.arena.size →
      ((onward^[first] start).2.arena.tree id).mass ≤ mass)
    (onRim : (onward^[length] start).2.arena.OnRim (form (onward^[first] start)) x) :
    ((onward^[length] start).2.arena.tree x).mass ≤ mass := by
  obtain ⟨advances, retains⟩ := position.later within
  have wellFormed := (position.iterate first).coherent.wellFormed
  have isInside : x.number < (onward^[first] start).2.arena.size := by
    have reaches := onRim.reaches (position.iterate length).coherent.wellFormed
      (advances.lt_size (position.inside_form first))
    exact wellFormed.reaches_lt (position.inside_form first)
      ((advances.extending.reaches_iff wellFormed (position.inside_form first)).mp reaches)
  rw [retains.tree_eq (onRim.closed.of_extends advances.extending wellFormed isInside)]
  exact bounded x isInside

/-- A table that is older than the copies does not tell them from their originals. -/
theorem tolerates_isCopy {length : Nat} (late : start.2.arena.size ≤ length) :
    start.2.Tolerates fun w n => w = n ∨ (onward^[length + 1] start).2.IsCopy
      (form (onward^[length] start)) (form (onward^[length + 1] start)) w n := by
  intro w n related different
  have distinct := position.coherent.ne_of_different different
  have isCopy := related.resolve_left distinct
  have isNew := ((position.chain (length + 1)).later_of_isCopy (Nat.lt_succ_self length)
    isCopy).resolve_left distinct.symm
  have isOld : n.number < start.2.arena.size := by
    rcases Arena.unorderedPair_cases w n with order | order
    · rw [order] at different
      exact (position.distinguishes.inside different).2
    · rw [order] at different
      exact (position.distinguishes.inside different).1
  exact absurd isOld (Nat.not_lt_of_le (late.trans isNew.le))

/-- Some round finds no change. -/
theorem exists_not_changes : ∃ k, ¬ Changes (onward^[k] start) := by
  obtain ⟨first, lasting⟩ := position.exists_lasting
  obtain ⟨mass, isMass⟩ := (onward^[first] start).2.arena.exists_mass_bound
    (onward^[first] start).2.arena.size
  -- one round makes stars, some settle the rim, and as many as there were slots make new copies
  let more := Rewriting.roundBound mass + start.2.arena.size + 1
  let length := first + more
  have within : first + more ≤ length + 1 := Nat.le_succ length
  have chain := position.chain (length + 1)
  have hasForm := chain length (Nat.lt_succ_self length)
  have same : ∀ k ≥ first, k < length + 1 →
      ((onward^[length + 1] start).2.arena.recurring (form (onward^[k + 1] start))).card =
        ((onward^[length + 1] start).2.arena.recurring (form (onward^[k] start))).card := by
    intro k later less
    rw [position.recurring_eq (Nat.succ_le_of_lt less), position.recurring_eq less.le]
    exact (lasting k later).1
  have bounded : ∀ a, (onward^[length + 1] start).2.arena.OnRim (form (onward^[first] start)) a →
      ((onward^[length + 1] start).2.arena.tree a).mass ≤ mass :=
    fun a onRim => position.mass_le (by omega) isMass onRim
  have fixed : ∀ a, (onward^[length + 1] start).2.arena.OnRim (form (onward^[length] start)) a →
      (onward^[length + 1] start).2.rewriting.Fixed a := fun a onRim =>
    chain.fixed_of_onRim within
      (fun k less => same (first + k) (Nat.le_add_right first k) (by omega)) bounded (by omega)
      (by omega) onRim
  have isLasting := same length (Nat.le_add_right first more) (Nat.lt_succ_self length)
  have leaning : ((onward^[length + 1] start).2.arena.leaning
        (form (onward^[length + 1] start))).card =
      ((onward^[length + 1] start).2.arena.leaning (form (onward^[length] start))).card := by
    rw [position.leaning_eq (Nat.le_succ length)]
    exact (lasting length (Nat.le_add_right first more)).2
  have plain : ∀ w ∈ (onward^[length + 1] start).2.arena.recurring (form (onward^[length] start)),
      ∀ lang, (onward^[length + 1] start).2.arena.slot? w ≠ some (.expr (.rep lang .infinite)) :=
    fun w member => (chain (length - 1) (by omega)).ne_rep member
  have family : (onward^[length + 1] start).2.arena.Family fun w n => w = n ∨
      (onward^[length + 1] start).2.IsCopy (form (onward^[length] start))
        (form (onward^[length + 1] start)) w n :=
    ⟨hasForm.isBisimulation isLasting fixed leaning plain, fun related => related.imp_right fun isCopy =>
      ⟨(hasForm.mem_recurring.mp isCopy.original).2, (hasForm.mem_recurring'.mp isCopy.copy).2⟩⟩
  exact ⟨length, position.not_changes family (position.tolerates_isCopy (by omega))
    (hasForm.eq_or_isCopy isLasting fixed)⟩

/-- After enough rounds nothing changes. -/
theorem stabilizes : ∃ rounds, ∀ passes ≥ rounds,
    (simplifyWithin start.1 0 passes start.2).1.stableAfter ≠ none := by
  obtain ⟨k, unchanged⟩ := position.exists_not_changes
  exact ⟨k + 1, fun passes enough unstable =>
    unchanged (changes_of_unstable unstable k (Nat.lt_of_succ_le enough))⟩

end Position

end Grammar

end Residual
