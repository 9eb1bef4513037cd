import Mathlib.Data.Finset.Prod
import Residual.Proofs.Arena.Patches
import Residual.Proofs.Grammar.Analyses

/-!
# Equality

Pairs that the equality table calls equal form a bisimulation, except that nothing is known about
cycles once a computation stopped at its pass cap.  Equal expressions mean the same, in the arena
and in every later one.

Pairs that it calls different are not bisimilar.  But that lasts only as long as no link is bound
below them.
-/

set_option autoImplicit false

namespace Residual

open Memo

namespace Arena

variable {arena before after : Arena} {x y x' y' : ExprId} {sense : Sense} {lang : Language Char}
  {table base final : Table (ExprId × ExprId) Bool}

theorem unorderedPair_cases (x y : ExprId) :
    unorderedPair x y = (x, y) ∨ unorderedPair x y = (y, x) := by
  unfold unorderedPair
  split
  · exact .inl rfl
  · exact .inr rfl

theorem unorderedPair_comm (x y : ExprId) : unorderedPair x y = unorderedPair y x := by
  obtain ⟨x⟩ := x
  obtain ⟨y⟩ := y
  unfold unorderedPair
  rcases Nat.lt_trichotomy x y with less | rfl | greater
  · rw [if_pos (Nat.le_of_lt less), if_neg (Nat.not_le_of_lt less)]
  · rfl
  · rw [if_neg (Nat.not_le_of_lt greater), if_pos (Nat.le_of_lt greater)]

/-- Two numbers are the same, or the table calls them equal. -/
def Paired (table : Table (ExprId × ExprId) Bool) (x y : ExprId) : Prop :=
  x = y ∨ table.settled[unorderedPair x y]? = some true

theorem Paired.symm (paired : Paired table x y) : Paired table y x := by
  rcases paired with same | settled
  · exact .inl same.symm
  · exact .inr (by rwa [unorderedPair_comm])

/-- What the table says about a pair can be relied on. -/
def PairTrusted (arena : Arena) (table : Table (ExprId × ExprId) Bool) (x y : ExprId) : Prop :=
  table.truncated = false ∨ arena.Grounded x ∨ arena.Grounded y

theorem PairTrusted.symm (trusted : arena.PairTrusted table x y) : arena.PairTrusted table y x :=
  trusted.imp_right Or.symm

/-- The two numbers are the same, or they are slots of the same operator with operands that are
paired in turn. -/
def Matched (arena : Arena) (table : Table (ExprId × ExprId) Bool) (x y : ExprId) : Prop :=
  x = y ∨ ∃ e e', arena.slot? x = some (.expr e) ∧ arena.slot? y = some (.expr e') ∧
    e.shape = e'.shape ∧
    List.Forall₂ (fun o o' => Paired table (arena.resolve o) (arena.resolve o'))
      e.operands e'.operands

theorem Matched.symm (isMatched : arena.Matched table x y) : arena.Matched table y x := by
  rcases isMatched with same | ⟨e, e', found, found', sameShape, operands⟩
  · exact .inl same.symm
  · exact .inr ⟨e', e, found', found, sameShape.symm, operands.flip.imp fun _ _ => Paired.symm⟩

/-- The settled pairs of an equality table are right in its arena. -/
structure EqualitySound (arena : Arena) (table : Table (ExprId × ExprId) Bool) : Prop where
  idle : ∀ pair : ExprId × ExprId, table.pending[pair]? = none
  iterates : table.strategy.iterates = true
  isMatched : ∀ {x y : ExprId}, table.settled[(x, y)]? = some true →
    arena.PairTrusted table x y → arena.Matched table x y
  reflexive : ∀ {x : ExprId} {value : Bool}, table.settled[(x, x)]? = some value → value = true

theorem EqualitySound.empty (maxPasses : Nat) : arena.EqualitySound (.empty (.iterate maxPasses)) :=
  ⟨by simp, rfl, by simp, by simp⟩

theorem grounded_operand {e : Expr ExprId} {o : ExprId} (found : arena.slot? x = some (.expr e))
    (member : o ∈ e.operands) (grounded : arena.Grounded x) : arena.Grounded (arena.resolve o) := by
  refine grounded.inv (mem_operands_iff.mpr ⟨o, ?_, rfl⟩)
  rwa [get_of_stands (stands_of_expr found)]

theorem PairTrusted.operands {e e' : Expr ExprId} {o o' : ExprId}
    (trusted : arena.PairTrusted table x y) (found : arena.slot? x = some (.expr e))
    (found' : arena.slot? y = some (.expr e')) (member : o ∈ e.operands)
    (member' : o' ∈ e'.operands) :
    arena.PairTrusted table (arena.resolve o) (arena.resolve o') :=
  trusted.imp_right (.imp (grounded_operand found member) (grounded_operand found' member'))

theorem PairTrusted.grows (growing : before.Grows after) (wellFormed : before.WellFormed)
    (wellFormed' : after.WellFormed) (trusted : after.PairTrusted table x y) :
    before.PairTrusted table x y := by
  have grounded : ∀ {x}, after.Grounded x → before.Grounded x := fun grounded =>
    wellFormed.grounded_resolve.mp
      (growing.grounded wellFormed wellFormed' (wellFormed'.grounded_resolve.mpr grounded))
  exact trusted.imp_right (.imp grounded grounded)

namespace EqualitySound

section Matching

variable (sound : arena.EqualitySound table)

include sound

theorem matched_of_paired (paired : Paired table x y) (trusted : arena.PairTrusted table x y) :
    arena.Matched table x y := by
  rcases paired with same | settled
  · exact .inl same
  · rcases unorderedPair_cases x y with order | order
    · exact sound.isMatched (order ▸ settled) trusted
    · exact (sound.isMatched (order ▸ settled) trusted.symm).symm

theorem isBisimulation :
    arena.IsBisimulation fun x y => Paired table x y ∧ arena.PairTrusted table x y := by
  rintro x y ⟨paired, trusted⟩
  rcases sound.matched_of_paired paired trusted with
    same | ⟨e, e', found, found', sameShape, operands⟩
  · exact .inl same
  · refine .inr ⟨e, e', found, found', sameShape, (forall₂_mem operands).imp ?_⟩
    rintro o o' ⟨member, member', paired⟩
    exact ⟨paired, trusted.operands found found' member member'⟩

end Matching

section Growing

variable (sound : before.EqualitySound table) (growing : before.Grows after)
  (wellFormed : before.WellFormed) (wellFormed' : after.WellFormed)

include sound growing wellFormed wellFormed'

/-- What a pair of numbers stands for stays paired. -/
theorem paired_grows (paired : Paired table (before.resolve x) (before.resolve y))
    (trusted : after.PairTrusted table (after.resolve x) (after.resolve y)) :
    Paired table (after.resolve x) (after.resolve y) := by
  have trusted : before.PairTrusted table (before.resolve x) (before.resolve y) :=
    trusted.imp_right (.imp (growing.grounded wellFormed wellFormed')
      (growing.grounded wellFormed wellFormed'))
  rcases sound.matched_of_paired paired trusted with same | ⟨e, e', found, found', _⟩
  · left
    rw [← growing.resolve_resolve wellFormed wellFormed' x, same,
      growing.resolve_resolve wellFormed wellFormed' y]
  · rwa [growing.resolve_of_stands wellFormed wellFormed' found,
      growing.resolve_of_stands wellFormed wellFormed' found']

/-- Growth never turns a pair that matches into one that does not, since an unbound link matches
itself alone. -/
theorem grows : after.EqualitySound table where
  idle := sound.idle
  iterates := sound.iterates
  reflexive := sound.reflexive
  isMatched {x y} settled trusted := by
    rcases sound.isMatched settled (trusted.grows growing wellFormed wellFormed') with
      same | ⟨e, e', found, found', sameShape, operands⟩
    · exact .inl same
    · have found := growing.expr found
      have found' := growing.expr found'
      refine .inr ⟨e, e', found, found', sameShape, (forall₂_mem operands).imp ?_⟩
      rintro o o' ⟨member, member', paired⟩
      exact sound.paired_grows growing wellFormed wellFormed' paired
        (trusted.operands found found' member member')

end Growing

/-- Paired numbers mean the same in every later arena. -/
theorem alike (sound : arena.EqualitySound table) (wellFormed : arena.WellFormed)
    (paired : Paired table (arena.resolve x) (arena.resolve y)) :
    arena.Alike table.Trusts x y := by
  intro later growing wellFormed' sense trusts lang
  have sound' := sound.grows growing wellFormed wellFormed'
  have forward : ∀ {x y}, Paired table (arena.resolve x) (arena.resolve y) →
      later.Means sense x lang → later.Means sense y lang := by
    intro x y paired means
    have trusted : later.PairTrusted table (later.resolve x) (later.resolve y) := by
      cases sense with
      | structural => exact .inr (.inl (wellFormed'.grounded_of_denotes means))
      | least => exact .inl (trusts rfl)
    have paired := sound.paired_grows growing wellFormed wellFormed' paired trusted
    exact wellFormed'.means_of_bisimulation sound'.isBisimulation ⟨paired, trusted⟩ means
  exact ⟨forward paired, forward paired.symm⟩

end EqualitySound

/-! ## Differences -/

@[simp]
theorem bisimilar_unorderedPair :
    arena.Bisimilar (unorderedPair x y).1 (unorderedPair x y).2 ↔ arena.Bisimilar x y := by
  rcases unorderedPair_cases x y with order | order
  · rw [order]
  · rw [order]
    exact ⟨Bisimilar.symm, Bisimilar.symm⟩

theorem patched_unorderedPair {limit : Nat} (patched : arena.Patched limit (unorderedPair x y).1 ∨
    arena.Patched limit (unorderedPair x y).2) : arena.Patched limit x ∨ arena.Patched limit y := by
  rcases unorderedPair_cases x y with order | order
  · rwa [order] at patched
  · rw [order] at patched
    exact patched.symm

/-- Pairs that the table calls different are bisimilar only if below one of them a link was bound
that is not among the first `limit` slots. -/
structure Distinguishes (arena : Arena) (limit : Nat) (table : Table (ExprId × ExprId) Bool) :
    Prop where
  inside : ∀ {x y : ExprId}, table.settled[(x, y)]? = some false →
    x.number < arena.size ∧ y.number < arena.size
  patched : ∀ {x y : ExprId}, table.settled[(x, y)]? = some false → arena.Bisimilar x y →
    arena.Patched limit x ∨ arena.Patched limit y

theorem Distinguishes.empty (arena : Arena) (limit : Nat) (strategy : Strategy) :
    arena.Distinguishes limit (.empty strategy) :=
  ⟨by simp, by simp⟩

/-- Binding a late link makes an exception of every pair that it can make bisimilar. -/
theorem Distinguishes.grows {limit : Nat} (distinguishes : before.Distinguishes limit table)
    (growing : before.Grows after) (agree : Agree limit before after)
    (wellFormed : before.WellFormed) (wellFormed' : after.WellFormed) :
    after.Distinguishes limit table where
  inside found := (distinguishes.inside found).imp growing.lt_size growing.lt_size
  patched found bisimilar := by
    obtain ⟨inside, inside'⟩ := distinguishes.inside found
    by_contra clean
    obtain ⟨clean, clean'⟩ := not_or.mp clean
    have bisimilar := bisimilar_of_not_patched growing agree wellFormed wellFormed' inside inside'
      clean clean' bisimilar
    rcases distinguishes.patched found bisimilar with patched | patched
    · exact clean (patched.grows growing)
    · exact clean' (patched.grows growing)

/-! ## The equations -/

/-- Asks for all pairs of a list, and whether they all are equal. -/
def conjunction (pairs : List (ExprId × ExprId)) (start : Bool) :
    Reading (ExprId × ExprId) Bool Bool :=
  pairs.foldlM (fun same (x, y) => do return (← .read (unorderedPair x y)) && same) start

theorem conjunction_cons (pair : ExprId × ExprId) (pairs : List (ExprId × ExprId)) (start : Bool) :
    conjunction (pair :: pairs) start =
      Reading.read (unorderedPair pair.1 pair.2) >>= fun value =>
        conjunction pairs (value && start) := by
  unfold conjunction
  rw [List.foldlM_cons]
  simp only [bind_assoc, pure_bind]

theorem equalityEquation_eq (arena : Arena) (x y : ExprId) : arena.equalityEquation (x, y) =
    if x = y then pure true
    else if arena.isUnbound x || arena.isUnbound y then pure false
    else if (arena.get x).shape = (arena.get y).shape then
      conjunction ((arena.operands x).zip (arena.operands y)) true
    else pure false := rfl

theorem conjunction_asks {Asked : ExprId × ExprId → Prop} {pairs : List (ExprId × ExprId)}
    (each : ∀ pair ∈ pairs, Asked (unorderedPair pair.1 pair.2)) (start : Bool) :
    (conjunction pairs start).Asks Asked :=
  .foldlM (fun pair member _ => (Reading.Asks.read (each pair member)).bind fun _ => .pure _) start

theorem conjunction_needs {pair : ExprId × ExprId} {pairs : List (ExprId × ExprId)}
    (member : pair ∈ pairs) (start : Bool) :
    (conjunction pairs start).Needs (unorderedPair pair.1 pair.2) := by
  induction pairs generalizing start with
  | nil => simp at member
  | cons first rest inductionHypothesis =>
      rw [conjunction_cons]
      rcases List.mem_cons.mp member with rfl | member
      · exact .bind_left _ (.read _)
      · exact .bind_right _ fun value => inductionHypothesis member _

theorem holds_of_conjunction {Holds : ExprId × ExprId → Bool → Prop}
    {pairs : List (ExprId × ExprId)} {start : Bool}
    (answers : (conjunction pairs start).Answers Holds true) :
    ∀ pair ∈ pairs, Holds (unorderedPair pair.1 pair.2) true := by
  have startTrue : ∀ {pairs start}, (conjunction pairs start).Answers Holds true →
      start = true := by
    intro pairs start answers
    induction pairs generalizing start with
    | nil => exact (Reading.Answers.pure_iff.mp answers).symm
    | cons first rest inductionHypothesis =>
        rw [conjunction_cons, Reading.Answers.bind_iff] at answers
        obtain ⟨value, _, answers⟩ := answers
        exact (Bool.and_eq_true_iff.mp (inductionHypothesis answers)).2
  induction pairs generalizing start with
  | nil => simp
  | cons first rest inductionHypothesis =>
      rw [conjunction_cons, Reading.Answers.bind_iff] at answers
      obtain ⟨value, holds, answers⟩ := answers
      obtain ⟨rfl, _⟩ := Bool.and_eq_true_iff.mp (startTrue answers)
      intro pair member
      rcases List.mem_cons.mp member with rfl | member
      · exact Reading.Answers.read_iff.mp holds
      · exact inductionHypothesis answers pair member

/-- The first pair asks for the second one: its components are operands of the two components of
the first pair. -/
def PairChild (arena : Arena) (pair pair' : ExprId × ExprId) : Prop :=
  ∃ o o', arena.Child pair.1 o ∧ arena.Child pair.2 o' ∧ pair' = unorderedPair o o'

/-- There is no cycle through a pair with a component below which there is none. -/
theorem acc_pairChild (grounded : arena.Grounded x) :
    ∀ pair : ExprId × ExprId, pair.1 = x ∨ pair.2 = x →
      Acc (fun pair' pair => arena.PairChild pair pair') pair := by
  induction grounded with
  | intro x _ inductionHypothesis =>
      intro pair component
      refine .intro _ ?_
      rintro _ ⟨o, o', child, child', rfl⟩
      rcases component with rfl | rfl
      · exact inductionHypothesis o child _ (by
          rcases unorderedPair_cases o o' with order | order <;> simp [order])
      · exact inductionHypothesis o' child' _ (by
          rcases unorderedPair_cases o o' with order | order <;> simp [order])

theorem acc_unorderedPair (grounded : arena.Grounded x ∨ arena.Grounded y) :
    Acc (fun pair' pair => arena.PairChild pair pair') (unorderedPair x y) := by
  rcases grounded with grounded | grounded
  · refine acc_pairChild grounded _ ?_
    rcases unorderedPair_cases x y with order | order <;> simp [order]
  · refine acc_pairChild grounded _ ?_
    rcases unorderedPair_cases x y with order | order <;> simp [order]

/-- The resolved pairs of an arena. -/
def pairs (arena : Arena) : Finset (ExprId × ExprId) :=
  (arena.ids ×ˢ arena.ids).filter fun pair =>
    arena.resolve pair.1 = pair.1 ∧ arena.resolve pair.2 = pair.2

theorem mem_pairs {pair : ExprId × ExprId} : pair ∈ arena.pairs ↔
    (pair.1.number < arena.size ∧ pair.2.number < arena.size) ∧
      arena.resolve pair.1 = pair.1 ∧ arena.resolve pair.2 = pair.2 := by
  unfold pairs
  rw [Finset.mem_filter, Finset.mem_product, mem_ids, mem_ids]

theorem card_pairs_le (arena : Arena) : arena.pairs.card ≤ arena.size * arena.size := by
  refine (Finset.card_filter_le _ _).trans ?_
  rw [Finset.card_product]
  exact Nat.mul_le_mul arena.card_ids_le arena.card_ids_le

theorem unorderedPair_mem_pairs (wellFormed : arena.WellFormed) (inside : x.number < arena.size)
    (inside' : y.number < arena.size) :
    unorderedPair (arena.resolve x) (arena.resolve y) ∈ arena.pairs := by
  unfold pairs
  rw [Finset.mem_filter, Finset.mem_product]
  have inside := wellFormed.resolve_lt inside
  have inside' := wellFormed.resolve_lt inside'
  rcases unorderedPair_cases (arena.resolve x) (arena.resolve y) with order | order <;>
    simp [order, inside, inside', wellFormed.resolve_resolve]

section Equation

variable (wellFormed : arena.WellFormed)

include wellFormed

/-- An equality equation always asks for the same pairs. -/
theorem equalityEquation_asks (pair : ExprId × ExprId) :
    (arena.equalityEquation pair).Asks fun other =>
      ((arena.equalityEquation pair).Needs other ∧ arena.PairChild pair other) ∧
        other ∈ arena.pairs := by
  obtain ⟨x, y⟩ := pair
  have below : ∀ p ∈ (arena.operands x).zip (arena.operands y),
      arena.PairChild (x, y) (unorderedPair p.1 p.2) ∧ unorderedPair p.1 p.2 ∈ arena.pairs := by
    rintro ⟨o, o'⟩ inZip
    obtain ⟨child, child'⟩ := List.of_mem_zip inZip
    refine ⟨⟨o, o', child, child', rfl⟩, ?_⟩
    obtain ⟨z, member, rfl⟩ := mem_operands_iff.mp child
    obtain ⟨z', member', rfl⟩ := mem_operands_iff.mp child'
    exact unorderedPair_mem_pairs wellFormed (wellFormed.operand_lt_of_get member)
      (wellFormed.operand_lt_of_get member')
  rw [equalityEquation_eq]
  split
  · exact .pure _
  · split
    · exact .pure _
    · split
      · refine conjunction_asks (fun p member => ?_) true
        exact ⟨⟨conjunction_needs member true, (below p member).1⟩, (below p member).2⟩
      · exact .pure _

/-- Two distinct resolved numbers are called equal for their operators and their operands. -/
theorem matched_of_answers {Holds : ExprId × ExprId → Bool → Prop} (inPairs : (x, y) ∈ arena.pairs)
    (answers : (arena.equalityEquation (x, y)).Answers Holds true) :
    x = y ∨ ∃ e e', arena.slot? x = some (.expr e) ∧ arena.slot? y = some (.expr e') ∧
      e.shape = e'.shape ∧
      List.Forall₂ (fun o o' =>
        Holds (unorderedPair (arena.resolve o) (arena.resolve o')) true) e.operands e'.operands := by
  unfold pairs at inPairs
  rw [Finset.mem_filter, Finset.mem_product, mem_ids, mem_ids] at inPairs
  obtain ⟨⟨inside, inside'⟩, resolved, resolved'⟩ := inPairs
  dsimp only at inside inside' resolved resolved'
  have slot : ∀ {z}, z.number < arena.size → arena.resolve z = z → arena.isUnbound z = false →
      ∃ e, arena.slot? z = some (.expr e) := by
    intro z inside resolved bound
    rcases wellFormed.stands_or_unbound inside with ⟨e, stands⟩ | unbound
    · rw [Stands, resolved] at stands
      exact ⟨e, stands⟩
    · rw [resolved] at unbound
      simp [isUnbound_iff.mpr unbound] at bound
  rw [equalityEquation_eq] at answers
  split at answers
  · rename_i same
    exact .inl same
  · split at answers
    · cases Reading.Answers.pure_iff.mp answers
    · rename_i bound
      simp only [Bool.or_eq_true, not_or, Bool.not_eq_true] at bound
      obtain ⟨e, found⟩ := slot inside resolved bound.1
      obtain ⟨e', found'⟩ := slot inside' resolved' bound.2
      unfold operands at answers
      rw [get_of_stands (stands_of_expr found), get_of_stands (stands_of_expr found')] at answers
      split at answers
      · rename_i sameShape
        have sameLength : (e.operands.map arena.resolve).length =
            (e'.operands.map arena.resolve).length := by
          have mapped := congrArg (fun e : Expr Unit => e.operands.length) sameShape
          simpa [Expr.shape] using mapped
        have holds := holds_of_conjunction answers
        refine .inr ⟨e, e', found, found', sameShape, ?_⟩
        rw [← List.forall₂_map_left_iff (f := arena.resolve)
            (R := fun o o' => Holds (unorderedPair o (arena.resolve o')) true),
          ← List.forall₂_map_right_iff (f := arena.resolve)
            (R := fun o o' => Holds (unorderedPair o o') true), List.forall₂_iff_zip]
        exact ⟨sameLength, fun member => holds _ member⟩
      · cases Reading.Answers.pure_iff.mp answers

end Equation

/-- A conjunction of pairs that are told to be equal is true. -/
theorem true_of_conjunction {Holds : ExprId × ExprId → Bool → Prop} {value : Bool}
    {pairs : List (ExprId × ExprId)}
    (each : ∀ pair ∈ pairs, ∀ told, Holds (unorderedPair pair.1 pair.2) told → told = true)
    (answers : (conjunction pairs true).Answers Holds value) : value = true := by
  induction pairs with
  | nil => exact Reading.Answers.pure_iff.mp answers
  | cons first rest inductionHypothesis =>
      rw [conjunction_cons, Reading.Answers.bind_iff] at answers
      obtain ⟨told, holds, answers⟩ := answers
      obtain rfl := each first (by simp) told (Reading.Answers.read_iff.mp holds)
      exact inductionHypothesis (fun pair member => each pair (by simp [member])) answers

/-- Slots of the same operator are called equal if their operands are. -/
theorem true_of_answers {Holds : ExprId × ExprId → Bool → Prop} {value : Bool}
    (same : x = y ∨ arena.Corresponds
      (fun o o' => ∀ told, Holds (unorderedPair o o') told → told = true) x y)
    (answers : (arena.equalityEquation (x, y)).Answers Holds value) : value = true := by
  rw [equalityEquation_eq] at answers
  by_cases isSame : x = y
  · rw [if_pos isSame] at answers
    exact Reading.Answers.pure_iff.mp answers
  · obtain ⟨e, e', found, found', sameShape, operands⟩ := same.resolve_left isSame
    have bound : (arena.isUnbound x || arena.isUnbound y) = false := by
      simp [isUnbound, found, found']
    rw [if_neg isSame, bound, if_neg Bool.false_ne_true] at answers
    unfold Arena.operands at answers
    rw [get_of_stands (stands_of_expr found), get_of_stands (stands_of_expr found'),
      if_pos sameShape] at answers
    have resolved : List.Forall₂
        (fun o o' => ∀ told, Holds (unorderedPair o o') told → told = true)
        (e.operands.map arena.resolve) (e'.operands.map arena.resolve) := by
      rw [List.forall₂_map_left_iff, List.forall₂_map_right_iff]
      exact operands
    exact true_of_conjunction (fun pair member => List.forall₂_zip resolved member) answers

/-- The equality equations of an arena.  A value calls no bisimilar pair different, unless a table
that was there before has a reason to, and no number different from itself. -/
def equalitySystem (arena : Arena) (wellFormed : arena.WellFormed)
    (base : Table (ExprId × ExprId) Bool) : EquationSystem (ExprId × ExprId) Bool where
  equation := arena.equalityEquation
  bottom := fun _ => true
  keys := arena.pairs
  Asks pair other := (arena.equalityEquation pair).Needs other ∧ arena.PairChild pair other
  Bound pair value := (pair.1 = pair.2 → value = true) ∧
    ∀ limit, arena.Distinguishes limit base → arena.Bisimilar pair.1 pair.2 →
      ¬ (arena.Patched limit pair.1 ∨ arena.Patched limit pair.2) → value = true
  asks pair _ := equalityEquation_asks wellFormed pair
  bottom_bound _ _ _ := ⟨fun _ => rfl, fun _ _ _ _ => rfl⟩
  equation_bound pair inKeys value answers := by
    refine ⟨fun same => true_of_answers (.inl same) answers, ?_⟩
    intro limit distinguishes bisimilar clean
    obtain ⟨_, resolved, resolved'⟩ := mem_pairs.mp inKeys
    have same := bisimilar.cases wellFormed
    rw [resolved, resolved'] at same
    refine true_of_answers (same.imp_right ?_) answers
    rintro ⟨e, e', found, found', sameShape, operands⟩
    refine ⟨e, e', found, found', sameShape, (forall₂_mem operands).imp ?_⟩
    rintro o o' ⟨member, member', bisimilar⟩ told bound
    refine bound.2 limit distinguishes (bisimilar_unorderedPair.mpr bisimilar) fun patched => ?_
    exact clean ((patched_unorderedPair patched).imp (.of_operand wellFormed found member)
      (.of_operand wellFormed found' member'))

theorem Matched.mono (isMatched : arena.Matched base x y)
    (kept : ∀ pair : ExprId × ExprId, base.settled[pair]? = some true →
      final.settled[pair]? = some true) : arena.Matched final x y := by
  rcases isMatched with same | ⟨e, e', found, found', sameShape, operands⟩
  · exact .inl same
  · exact .inr ⟨e, e', found, found', sameShape,
      operands.imp fun _ _ paired => paired.imp_right (kept _)⟩

/-- An evaluation keeps the table right. -/
theorem EqualitySound.of_settles {root : ExprId × ExprId} {value : Bool}
    (wellFormed : arena.WellFormed) (sound : arena.EqualitySound base)
    (settles : (arena.equalitySystem wellFormed base).Settles base root value final) :
    arena.EqualitySound final where
  idle := settles.idle
  iterates := settles.strategy_eq ▸ sound.iterates
  reflexive found := by
    rcases settles.new found with wasThere | ⟨_, bound, _⟩
    · exact sound.reflexive wasThere
    · exact bound.1 rfl
  isMatched {x y} found trusted := by
    rcases settles.new found with wasThere | ⟨inKeys, _, answers⟩
    · have trusted : arena.PairTrusted base x y := by
        refine trusted.imp_left fun complete => ?_
        by_contra truncated
        simp [settles.truncated (by simpa using truncated)] at complete
      exact (sound.isMatched wasThere trusted).mono fun _ => settles.kept
    · have reliable : (arena.equalitySystem wellFormed base).Trusted final (x, y) := by
        rcases trusted with complete | grounded
        · exact .inl ⟨settles.strategy_eq ▸ sound.iterates, complete⟩
        · right
          intro cycle
          have accessible : Acc (fun pair' pair => arena.PairChild pair pair') (x, y) := by
            rcases grounded with grounded | grounded
            · exact acc_pairChild grounded (x, y) (.inl rfl)
            · exact acc_pairChild grounded (x, y) (.inr rfl)
          exact not_transGen_of_acc accessible
            (Relation.TransGen.mono (p := arena.PairChild) (fun _ _ asks => asks.2) _ _ cycle)
      rcases matched_of_answers wellFormed inKeys (answers reliable) with
        same | ⟨e, e', found, found', sameShape, operands⟩
      · exact .inl same
      · exact .inr ⟨e, e', found, found', sameShape, operands.imp fun _ _ => .inr⟩

theorem Distinguishes.of_settles {limit : Nat} {root : ExprId × ExprId} {value : Bool}
    (wellFormed : arena.WellFormed) (distinguishes : arena.Distinguishes limit base)
    (settles : (arena.equalitySystem wellFormed base).Settles base root value final) :
    arena.Distinguishes limit final where
  inside found := by
    rcases settles.new found with wasThere | ⟨inKeys, _⟩
    · exact distinguishes.inside wasThere
    · exact (mem_pairs.mp inKeys).1
  patched found bisimilar := by
    rcases settles.new found with wasThere | ⟨_, bound, _⟩
    · exact distinguishes.patched wasThere bisimilar
    · by_contra clean
      exact Bool.false_ne_true (bound.2 limit distinguishes bisimilar clean)

end Arena

namespace Grammar

variable {grammar : Grammar} {x y : ExprId}

/-- The equality table distinguishes the expressions of the grammar, up to links that are not among
the first `limit` slots. -/
def Distinguishes (grammar : Grammar) (limit : Nat) : Prop :=
  grammar.arena.Distinguishes limit grammar.tables.equalities

theorem equalities_isField : Tables.IsField Tables.equalities
    fun f tables => { tables with equalities := f tables.equalities } :=
  ⟨fun _ _ => rfl, fun _ _ _ => rfl, fun _ => rfl⟩

/-- Equality is answered by a settled value of the table, which stays right. -/
theorem yields_computeEqual (wellFormed : grammar.arena.WellFormed)
    (sound : grammar.arena.EqualitySound grammar.tables.equalities)
    (inside : x.number < grammar.arena.size) (inside' : y.number < grammar.arena.size) :
    (computeEqual x y).Yields grammar fun value after =>
      (∃ equalities, after.tables = { grammar.tables with equalities } ∧
        grammar.arena.EqualitySound equalities ∧
        (grammar.tables.equalities.truncated = true → equalities.truncated = true) ∧
        (grammar.arena.Grounded (grammar.arena.resolve x) ∨
            grammar.arena.Grounded (grammar.arena.resolve y) →
          equalities.truncated = true → grammar.tables.equalities.truncated = true) ∧
        (∀ limit, grammar.arena.Distinguishes limit grammar.tables.equalities →
          grammar.arena.Distinguishes limit equalities) ∧
        grammar.tables.equalities.Lasts equalities ∧
        equalities.settled[Arena.unorderedPair (grammar.arena.resolve x) (grammar.arena.resolve y)]? =
          some value) ∧
      after.config = grammar.config ∧ after.arena = grammar.arena ∧ after.fault = grammar.fault := by
  unfold computeEqual
  simp only [Eval.yields_bind, Eval.yields_get]
  let system := grammar.arena.equalitySystem wellFormed grammar.tables.equalities
  have isStatic : system.IsStatic := fun _ _ _ asks => asks.1
  have settledBound : ∀ {pair : ExprId × ExprId} {value : Bool},
      grammar.tables.equalities.settled[pair]? = some value → system.Bound pair value := by
    intro pair value found
    refine ⟨fun same => ?_, fun limit distinguishes bisimilar clean => ?_⟩
    · obtain ⟨x, y⟩ := pair
      cases same
      exact sound.reflexive found
    · cases value with
      | true => rfl
      | false => exact absurd (distinguishes.patched found bisimilar) clean
  refine (yields_analysis_static equalities_isField (fun _ _ => rfl) rfl isStatic settledBound
    sound.idle (Arena.unorderedPair_mem_pairs wellFormed inside inside')
    (Nat.lt_succ_of_le grammar.arena.card_pairs_le)).mono ?_
  rintro value after ⟨⟨config, arena, fault, f, tables⟩, settles⟩
  rw [tables] at settles
  refine ⟨⟨_, tables, sound.of_settles wellFormed settles, settles.truncated, fun grounded => ?_,
    fun limit distinguishes => distinguishes.of_settles wellFormed settles, fun _ _ => settles.kept,
    settles.answered⟩, config, arena, fault⟩
  exact settles.truncated_of_acc (Subrelation.accessible (fun asks => asks.2)
    (Arena.acc_unorderedPair grounded))

end Grammar

end Residual
