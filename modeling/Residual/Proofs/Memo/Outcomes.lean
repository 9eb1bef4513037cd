import Mathlib.Data.Set.Card
import Mathlib.Order.FixedPoints
import Mathlib.Order.Iterate
import Mathlib.Order.CompletePartialOrder
import Residual.Proofs.Memo.Passes

/-!
# What evaluations settle

The passes of an evaluation follow each other, each with the values of the former one, until
nothing changes or no more passes are allowed.  The values of the last pass are settled.

There are two reasons why they are right.  If nothing changed they solve their equations.  And if
the equations always ask for the same keys, every pass brings all values one step closer to the
solution (`Rising`), so that enough passes reach it also where other values keep changing.
-/

set_option autoImplicit false

namespace Residual.Memo

/-- The least fixed point of a monotone operator on the subsets of a finite set is reached after
as many steps as the set has elements. -/
theorem lfp_le_iterate_card {Item : Type} (operator : Set Item →o Set Item) (items : Finset Item)
    (inside : ∀ set, operator set ⊆ items) : operator.lfp ≤ operator^[items.card] ⊥ := by
  let approximant : Nat → Set Item := fun n => operator^[n] ⊥
  have next : ∀ n, approximant (n + 1) = operator (approximant n) := fun n =>
    Function.iterate_succ_apply' operator n ⊥
  have below : ∀ n, approximant n ⊆ items := by
    intro n
    cases n with
    | zero => exact Set.empty_subset _
    | succ n =>
        rw [next]
        exact inside _
  have rising : Monotone approximant := operator.monotone.monotone_iterate_of_le_map bot_le
  have finite : ∀ n, (approximant n).Finite := fun n => items.finite_toSet.subset (below n)
  have stays : ∀ n, (approximant n).ncard = (approximant (n + 1)).ncard →
      approximant n = approximant (n + 1) := fun n same =>
    Set.eq_of_subset_of_ncard_le (rising (Nat.le_succ n)) same.ge (finite (n + 1))
  -- an approximant of the same size as the one before is a fixed point
  have stable := Nat.stabilises_of_monotone (f := fun n => (approximant n).ncard)
    (b := items.card) (n := items.card + 1)
    (fun m n later => Set.ncard_le_ncard (rising later) (finite n))
    (fun n => by
      rw [← Set.ncard_coe_finset items]
      exact Set.ncard_le_ncard (below n) items.finite_toSet)
    (fun n same => by
      change (approximant (n + 1)).ncard = (approximant (n + 1 + 1)).ncard
      rw [next (n + 1), ← stays n same, ← next n]
      exact same)
    (Nat.le_succ _)
  have fixed : operator (approximant items.card) = approximant items.card := by
    rw [← next]
    exact (stays items.card stable.symm).symm
  exact operator.lfp_le fixed.le

namespace EquationSystem

variable {Key Value : Type} [BEq Key] [Hashable Key] (system : EquationSystem Key Value)
  {base table final : Table Key Value} {former : Key → Value} {root key : Key} {stack : Finset Key}
  {value : Value} {passes n : Nat} {Above : Nat → Key → Value → Prop}

/-! ## From pass to pass -/

/-- The values before each pass of an evaluation of `root`: the bottoms before the first one, and
then those of the former pass. -/
inductive Former (base : Table Key Value) (root : Key) : (passes : Nat) → (Key → Value) → Prop where
  | bottom : Former base root 0 system.bottom
  | next {passes : Nat} {former : Key → Value} {table : Table Key Value} :
      Former base root passes former → system.Pass base former root ∅ table →
      table.Evaluated root → table.unstable = true →
      Former base root (passes + 1) fun key => table.initial key (system.bottom key)

/-- The equations always ask for the same keys. -/
def IsStatic : Prop :=
  ∀ key ∈ system.keys, ∀ other, system.Asks key other → (system.equation key).Needs other

/-- Bounds that come closer step by step: settled values keep all of them, and an equation that is
told values within one bound answers within the next. -/
structure Rising (base : Table Key Value) (Above : Nat → Key → Value → Prop) : Prop where
  zero : ∀ key value, Above 0 key value
  weaken : ∀ {n : Nat} {key : Key} {value : Value}, Above (n + 1) key value → Above n key value
  settled : ∀ {key : Key} {value : Value}, base.settled[key]? = some value →
    ∀ n, Above n key value
  step : ∀ {n : Nat} {key : Key} {value : Value}, key ∈ system.keys →
    (system.equation key).Answers (Above n) value → Above (n + 1) key value

variable {system}

theorem Rising.of_le (rising : system.Rising base Above) {m : Nat} (fewer : m ≤ n)
    (above : Above n key value) : Above m key value := by
  induction fewer with
  | refl => exact above
  | step _ inductionHypothesis => exact inductionHypothesis (rising.weaken above)

namespace Pass

/-- When a pass has ended, all that was told is final or was told on a cycle. -/
theorem seen_cases (pass : system.Pass base former root ∅ table) {other : Key}
    (seen : system.Seen base former table key other value) :
    base.settled[other]? = some value ∨ table.pending[other]? = some ⟨value, .evaluated⟩ ∨
      (system.Cyclic key ∧ table.reentered = true ∧ table.changed = true ∧
        value = former other ∧ table.Evaluated other) := by
  rcases seen with settled | evaluated | ⟨cyclic, reentered, was, running | ⟨changed, evaluated⟩⟩
  · exact .inl settled
  · exact .inr (.inl evaluated)
  · have onStack := (pass.running_iff other).mpr ⟨value, running⟩
    simp at onStack
  · exact .inr (.inr ⟨cyclic, reentered, changed, was, evaluated⟩)

/-- All keys on the way are evaluated in every pass if the equations always ask for the same
keys. -/
theorem evaluated_of_path (pass : system.Pass base former root ∅ table)
    (isStatic : system.IsStatic) (evaluated : table.Evaluated root)
    (path : system.Path base root key) : table.Evaluated key := by
  induction path with
  | refl => exact evaluated
  | @tail key other _ asks inductionHypothesis =>
      obtain ⟨value, found⟩ := inductionHypothesis
      have needs := isStatic key (pass.pending found).2.1 other asks.1
      obtain ⟨told, seen⟩ := needs.exists_holds (pass.answers found)
      rcases pass.seen_cases seen with settled | evaluated | ⟨_, _, _, _, evaluated⟩
      · simp [asks.2] at settled
      · exact ⟨told, evaluated⟩
      · exact evaluated

/-- If the provisional values keep a bound, the values that a pass finds keep the next one. -/
theorem rises (pass : system.Pass base former root ∅ table) (rising : system.Rising base Above)
    (provisional : ∀ key, base.settled[key]? = none → system.Path base root key →
      Above n key (former key))
    (found : table.pending[key]? = some ⟨value, .evaluated⟩) : Above (n + 1) key value := by
  suffices rises : ∀ m ≤ n + 1, ∀ key value,
      table.pending[key]? = some ⟨value, .evaluated⟩ → Above m key value from
    rises (n + 1) le_rfl key value found
  intro m
  induction m with
  | zero => exact fun _ key value _ => rising.zero key value
  | succ m inductionHypothesis =>
      intro fewer key value found
      refine rising.step (pass.pending found).2.1 ((pass.answers found).mono ?_)
      intro other told seen
      rcases pass.seen_cases seen with settled | evaluated | ⟨_, _, _, rfl, _, evaluated⟩
      · exact rising.settled settled m
      · exact inductionHypothesis (by omega) other told evaluated
      · obtain ⟨fresh, _, path, _⟩ := pass.pending evaluated
        exact rising.of_le (by omega) (provisional other fresh path)

/-- The values of a stable pass keep all bounds. -/
theorem rises_of_stable (pass : system.Pass base former root ∅ table)
    (rising : system.Rising base Above) (stable : table.reentered = true → table.changed = false)
    (found : table.pending[key]? = some ⟨value, .evaluated⟩) (n : Nat) : Above n key value := by
  induction n generalizing key value with
  | zero => exact rising.zero key value
  | succ n inductionHypothesis =>
      refine rising.step (pass.pending found).2.1 ((pass.answers found).mono ?_)
      intro other told seen
      rcases pass.seen_cases seen with settled | evaluated | ⟨_, reentered, changed, _⟩
      · exact rising.settled settled n
      · exact inductionHypothesis evaluated
      · simp [stable reentered] at changed

end Pass

/-- Every pass brings the values one step closer. -/
theorem Former.rises (following : system.Former base root passes former)
    (isStatic : system.IsStatic) (rising : system.Rising base Above)
    (path : system.Path base root key) : Above passes key (former key) := by
  induction following generalizing key with
  | bottom => exact rising.zero key _
  | @next passes former table _ pass evaluated _ inductionHypothesis =>
      obtain ⟨value, found⟩ := pass.evaluated_of_path isStatic evaluated path
      change Above (passes + 1) key (table.initial key (system.bottom key))
      rw [Table.initial_of_pending found]
      exact pass.rises rising (fun _ _ path => inductionHypothesis path) found

/-! ## The last pass -/

variable (system)

/-- A settled value is a solution of its equation: values were iterated until none changed, or the
key is on no cycle. -/
def Trusted (final : Table Key Value) (key : Key) : Prop :=
  (final.strategy.iterates = true ∧ final.truncated = false) ∨ ¬ system.Cyclic key

/-- What the evaluation of `root` made of the table `base`.  `Fresh` are the keys that were
evaluated in its last pass.  They were told what was settled before, or values of each other. -/
structure Outcome (base : Table Key Value) (root : Key) (value : Value) (final : Table Key Value)
    (Fresh : Key → Prop) : Prop where
  strategy_eq : final.strategy = base.strategy
  idle : ∀ key : Key, final.pending[key]? = none
  truncated : base.truncated = true → final.truncated = true
  circular : final.truncated = true → base.truncated = true ∨ system.Circular base root
  kept : ∀ {key : Key} {value : Value}, base.settled[key]? = some value →
    final.settled[key]? = some value
  exhausted : final.truncated = true → base.truncated = true ∨
    ∃ former, system.Former base root (base.strategy.repetitions + 1) former
  answered : final.settled[root]? = some value
  fresh_root : Fresh root
  fresh : ∀ {key : Key}, Fresh key → ∃ value, final.settled[key]? = some value ∧
    (system.equation key).Answers (fun other told => system.Trusted final key →
      base.settled[other]? = some told ∨ (Fresh other ∧ final.settled[other]? = some told)) value
  available : ∃ passes former, system.Former base root passes former ∧
    ∀ {key : Key} {value : Value}, Fresh key → final.settled[key]? = some value →
      system.Available base former key value
  new : ∀ {key : Key} {value : Value}, final.settled[key]? = some value →
    base.settled[key]? = some value ∨
      (base.settled[key]? = none ∧ key ∈ system.keys ∧ system.Path base root key ∧
        system.Bound key value)
  fresh_of_path : system.IsStatic → ∀ {key : Key}, system.Path base root key → Fresh key
  approximates : system.IsStatic → ∀ {Above : Nat → Key → Value → Prop}, system.Rising base Above →
    ∀ {key : Key} {value : Value}, final.settled[key]? = some value →
      Above (base.strategy.repetitions + 1) key value

variable {system}

theorem Pass.settled_commit [LawfulBEq Key]
    (pass : system.Pass base former root stack table) (key : Key) :
    table.commit.settled[key]? =
      ((table.pending[key]?).map Provisional.value).or base.settled[key]? := by
  rw [Table.settled_commit, pass.settled_eq]

/-- A pass that is stable, or the last one that is allowed, settles its values. -/
theorem Pass.outcome [LawfulBEq Key]
    (pass : system.Pass base former root ∅ table)
    (found : table.pending[root]? = some ⟨value, .evaluated⟩)
    (settled_eq : final.settled = table.commit.settled) (idle : final.pending = ∅)
    (strategy_eq : final.strategy = table.strategy)
    (truncated : table.truncated = true → final.truncated = true)
    (exhausted : final.truncated = true → table.truncated = true ∨
      (table.unstable = true ∧ passes = base.strategy.repetitions))
    (stable : final.truncated = true ∨ table.unstable = false)
    (following : system.Former base root passes former)
    (enough : passes = base.strategy.repetitions ∨
      (table.reentered = true → table.changed = false)) :
    system.Outcome base root value final table.Evaluated := by
  have committed : ∀ key : Key, final.settled[key]? =
      ((table.pending[key]?).map Provisional.value).or base.settled[key]? := by
    intro key
    rw [settled_eq, pass.settled_commit]
  have kept : ∀ {key : Key} {value : Value}, base.settled[key]? = some value →
      final.settled[key]? = some value := by
    intro key value found
    rw [committed]
    cases entry : table.pending[key]? with
    | none => simpa using found
    | some entry' => simp [(pass.pending entry).1] at found
  have evaluated : ∀ {key : Key} {value : Value}, table.pending[key]? = some ⟨value, .evaluated⟩ →
      final.settled[key]? = some value := by
    intro key value found
    rw [committed, found]
    rfl
  have new : ∀ {key : Key} {value : Value}, final.settled[key]? = some value →
      base.settled[key]? = some value ∨ (base.settled[key]? = none ∧ key ∈ system.keys ∧
        system.Path base root key ∧ system.Bound key value) := by
    intro key value found
    rw [committed] at found
    cases entry : table.pending[key]? with
    | none => exact .inl (by simpa [entry] using found)
    | some entry' =>
        rw [entry] at found
        cases found
        obtain ⟨fresh, inKeys, path, _⟩ := pass.pending entry
        exact .inr ⟨fresh, inKeys, path, pass.bound_of_finished rfl entry⟩
  have fresh : system.IsStatic → ∀ {key : Key}, system.Path base root key →
      table.Evaluated key := fun isStatic _ path =>
    pass.evaluated_of_path isStatic ⟨value, found⟩ path
  refine ⟨strategy_eq.trans pass.strategy_eq, by simp [idle], ?_, ?_, kept, ?_, evaluated found,
    ⟨value, found⟩, ?_, ⟨passes, former, following, ?_⟩, new, fresh, ?_⟩
  · intro wasTruncated
    exact truncated (pass.truncated_eq.trans wasTruncated)
  · intro isTruncated
    rcases exhausted isTruncated with wasTruncated | ⟨unstable, _⟩
    · exact .inl (pass.truncated_eq.symm.trans wasTruncated)
    · refine .inr (pass.circular ?_)
      simp only [Table.unstable, Bool.and_eq_true] at unstable
      exact unstable.1.2
  · intro isTruncated
    rcases exhausted isTruncated with wasTruncated | ⟨unstable, rfl⟩
    · exact .inl (pass.truncated_eq.symm.trans wasTruncated)
    · exact .inr ⟨_, following.next pass ⟨value, found⟩ unstable⟩
  · rintro key ⟨value, found⟩
    refine ⟨value, evaluated found, (pass.answers found).mono fun other told seen trusted => ?_⟩
    rcases pass.seen_cases seen with settled | evaluated' | ⟨cyclic, reentered, changed, _⟩
    · exact .inl settled
    · exact .inr ⟨⟨told, evaluated'⟩, evaluated evaluated'⟩
    · rcases trusted with ⟨iterates, complete⟩ | acyclic
      · rcases stable with isTruncated | stable
        · simp [complete] at isTruncated
        · simp [Table.unstable, ← strategy_eq, iterates, reentered, changed] at stable
      · exact absurd cyclic acyclic
  · rintro key value ⟨value', found'⟩ isFinal
    obtain rfl : value' = value := Option.some.inj ((evaluated found').symm.trans isFinal)
    exact pass.available found'
  · intro isStatic Above rising key value found
    rcases new found with settled | ⟨_, _, path, _⟩
    · exact rising.settled settled _
    · obtain ⟨value', found'⟩ := fresh isStatic path
      obtain rfl : value' = value := Option.some.inj ((evaluated found').symm.trans found)
      rcases enough with rfl | stable
      · exact pass.rises rising (fun _ _ path => following.rises isStatic rising path) found'
      · exact pass.rises_of_stable rising stable found' _

/-- The equation of a key of the last pass was evaluated with what is settled now. -/
theorem Outcome.reports_of_fresh {Fresh : Key → Prop}
    (outcome : system.Outcome base root value final Fresh)
    (iterates : base.strategy.iterates = true) (complete : final.truncated = false)
    (isFresh : Fresh key) : ∃ value, final.settled[key]? = some value ∧
      (system.equation key).Reports (fun other told => final.settled[other]? = some told ∧
        ((∃ settled, base.settled[other]? = some settled) ∨ Fresh other)) value := by
  obtain ⟨value, found, answers⟩ := outcome.fresh isFresh
  have trusted : system.Trusted final key := by
    refine .inl ⟨?_, complete⟩
    rw [outcome.strategy_eq]
    exact iterates
  refine ⟨value, found, Reading.Answers.reports (answers.mono fun other told isFinal => ?_)
    system.bottom fun first second => ?_⟩
  · rcases isFinal trusted with settled | ⟨isFresh, settled⟩
    · exact ⟨outcome.kept settled, .inl ⟨told, settled⟩⟩
    · exact ⟨settled, .inr isFresh⟩
  · exact Option.some.inj (first.1.symm.trans second.1)

/-- What is settled after an evaluation whose equations always ask for the same keys. -/
structure Settles (system : EquationSystem Key Value) (base : Table Key Value) (root : Key)
    (value : Value) (final : Table Key Value) : Prop where
  strategy_eq : final.strategy = base.strategy
  idle : ∀ key : Key, final.pending[key]? = none
  truncated : base.truncated = true → final.truncated = true
  circular : final.truncated = true → base.truncated = true ∨ system.Circular base root
  kept : ∀ {key : Key} {value : Value}, base.settled[key]? = some value →
    final.settled[key]? = some value
  answered : final.settled[root]? = some value
  new : ∀ {key : Key} {value : Value}, final.settled[key]? = some value →
    base.settled[key]? = some value ∨
      (key ∈ system.keys ∧ system.Bound key value ∧
        (system.Trusted final key → (system.equation key).Answers
          (fun other told => final.settled[other]? = some told) value))
  approximates : ∀ {Above : Nat → Key → Value → Prop}, system.Rising base Above →
    ∀ {key : Key} {value : Value}, final.settled[key]? = some value →
      Above (base.strategy.repetitions + 1) key value

theorem Settles.refl (idle : ∀ key : Key, base.pending[key]? = none)
    (found : base.settled[root]? = some value) : system.Settles base root value base where
  strategy_eq := rfl
  idle := idle
  truncated truncated := truncated
  circular := .inl
  kept found := found
  answered := found
  new found := .inl found
  approximates rising _ _ found := rising.settled found _

theorem Outcome.settles {Fresh : Key → Prop} (outcome : system.Outcome base root value final Fresh)
    (isStatic : system.IsStatic) : system.Settles base root value final where
  strategy_eq := outcome.strategy_eq
  idle := outcome.idle
  truncated := outcome.truncated
  circular := outcome.circular
  kept := outcome.kept
  answered := outcome.answered
  new {key value} found := by
    rcases outcome.new found with settled | ⟨_, inKeys, path, bound⟩
    · exact .inl settled
    · refine .inr ⟨inKeys, bound, fun trusted => ?_⟩
      obtain ⟨value', found', answers⟩ := outcome.fresh (outcome.fresh_of_path isStatic path)
      obtain rfl : value' = value := Option.some.inj (found'.symm.trans found)
      refine answers.mono fun other told isFinal => ?_
      rcases isFinal trusted with settled | ⟨_, settled⟩
      · exact outcome.kept settled
      · exact settled
  approximates := outcome.approximates isStatic

end EquationSystem

end Residual.Memo
