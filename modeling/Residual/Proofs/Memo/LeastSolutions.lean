import Mathlib.Algebra.Order.BigOperators.Group.Finset
import Mathlib.Order.KrullDimension
import Residual.Journal
import Residual.Proofs.Memo.Evaluation

/-!
# Least solutions

Iterated evaluation of monotone equations over an order of finite height answers with their least
solution, as Kleene iteration would.  Which keys a pass evaluates depends on what it is told, and it
is told values of the former pass and its own side by side.  What carries the argument instead:

* no value passes the least solution, because all of them are `Available` from values below it;
* no value falls from one pass to the next, so that each pass that changes something raises the
  `total` height of all values, of which there are only so many steps;
* the keys of a pass that changes nothing were told values of each other only, so that they solve
  their equations, and no solution is below the least one.
-/

set_option autoImplicit false

namespace Residual.Memo

/-! ## Closed systems -/

/-- A table and a journal: as much of a state as evaluation needs. -/
structure Store (Key Value : Type) [BEq Key] [Hashable Key] where
  table : Table Key Value
  journal : Journal

namespace Store

variable {Key Value : Type} [BEq Key] [Hashable Key]

/-- An empty table, and a journal that records. -/
def start (maxPasses : Nat) : Store Key Value where
  table := .empty (.iterate maxPasses)
  journal := .started

/-- No warning was recorded. -/
def Quiet (store : Store Key Value) : Prop :=
  ∀ event ∈ store.journal.events, event.level ≠ .warn

theorem quiet_start (maxPasses : Nat) : (start maxPasses : Store Key Value).Quiet := by
  simp [Quiet, start, Journal.started]

end Store

/-- Equations for finitely many keys that ask for each other. -/
structure ClosedSystem (Key Value : Type) where
  keys : Finset Key
  bottom : Key → Value
  equation : Key → Reading Key Value Value
  closed : ∀ key ∈ keys, (equation key).Asks (· ∈ keys)

namespace ClosedSystem

variable {Key Value : Type} (system : ClosedSystem Key Value)

/-- The values solve the equations of all keys. -/
def Solution (values : Key → Value) : Prop :=
  ∀ key ∈ system.keys, (system.equation key).eval values = values key

/-- No equation chooses what it asks for. -/
def AsksAlways : Prop :=
  ∀ key ∈ system.keys, (system.equation key).Asks (system.equation key).Needs

/-- The equations as a system in which nothing is known of the values. -/
def toEquationSystem : EquationSystem Key Value where
  equation := system.equation
  bottom := system.bottom
  keys := system.keys
  Asks key other := system.AsksAlways → (system.equation key).Needs other
  Bound _ _ := True
  asks key inKeys := by
    by_cases always : system.AsksAlways
    · exact ((always key inKeys).mono fun _ needs _ => needs).and (system.closed key inKeys)
    · exact (system.closed key inKeys).mono fun other member =>
        ⟨fun always' => absurd always' always, member⟩
  bottom_bound _ _ _ := trivial
  equation_bound _ _ _ _ := trivial

variable [BEq Key] [Hashable Key]

/-- The function that the equations define. -/
def solution : Recursion (Store Key Value) Key Value :=
  .ofReadings Store.table (fun f store => { store with table := f store.table }) system.bottom
    (fun _ => system.equation)
    (fun store => { store with journal := store.journal.note .passRepeated })
    (fun passes store => { store with journal := store.journal.note (.passesExhausted passes) })

/-- Nothing but a pass too many gives a warning. -/
theorem solution_follows :
    system.solution.Follows (fun store => store.table.truncated = false → store.Quiet)
      system.toEquationSystem where
  table_modify _ _ := rfl
  context_modify {store} f same quiet := by
    change (f store.table).truncated = false → store.Quiet
    rwa [same]
  table_noteRepeated _ := rfl
  context_noteRepeated {store} quiet complete := by
    change ∀ event ∈ (store.journal.note .passRepeated).events, event.level ≠ .warn
    unfold Journal.note
    split
    · intro event member
      rcases Array.mem_push.mp member with earlier | rfl
      · exact quiet complete event earlier
      · nofun
    · exact quiet complete
  table_noteExhausted _ _ := rfl
  context_giveUp _ _ := nofun
  bottom_eq _ := rfl
  finish_eq _ _ _ := rfl
  step_eq _ _ _ _ := rfl

end ClosedSystem

/-! ## Orders of finite height -/

section FiniteHeight

variable {Key Value : Type} [PartialOrder Value] {height : Nat} {value other : Value}
  {values values' : Key → Value}

/-- The length of the longest chain below a value. -/
noncomputable def rank (value : Value) : Nat :=
  (Order.height value).toNat

/-- The sum of the ranks of the values of some keys. -/
noncomputable def total (keys : Finset Key) (values : Key → Value) : Nat :=
  ∑ key ∈ keys, rank (values key)

variable (bounded : ∀ series : LTSeries Value, series.length ≤ height)

include bounded

theorem height_le_of_bounded (value : Value) : Order.height value ≤ height :=
  Order.height_le fun series _ => by exact_mod_cast bounded series

theorem rank_le (value : Value) : rank value ≤ height :=
  ENat.toNat_le_of_le_natCast (height_le_of_bounded bounded value)

theorem rank_lt (lt : value < other) : rank value < rank other := by
  have finite : ∀ value : Value, Order.height value ≠ ⊤ := fun value =>
    ne_top_of_le_ne_top (ENat.natCast_ne_top height) (height_le_of_bounded bounded value)
  unfold rank
  rw [← Nat.cast_lt (α := ℕ∞), ENat.natCast_toNat (finite value), ENat.natCast_toNat (finite other)]
  exact Order.height_strictMono lt (finite value).lt_top

theorem total_le (keys : Finset Key) (values : Key → Value) :
    total keys values ≤ keys.card * height :=
  Finset.sum_le_card_nsmul keys _ height fun key _ => rank_le bounded (values key)

/-- Values that rise, and not all stay, have a greater total. -/
theorem total_lt {keys : Finset Key} (rises : values ≤ values') {key : Key} (member : key ∈ keys)
    (differs : values key ≠ values' key) : total keys values < total keys values' := by
  refine Finset.sum_lt_sum (fun key _ => ?_) ⟨key, member, ?_⟩
  · rcases (rises key).eq_or_lt with same | lt
    · rw [same]
    · exact (rank_lt bounded lt).le
  · exact rank_lt bounded (lt_of_le_of_ne (rises key) differs)

end FiniteHeight

/-! ## The least solution -/

namespace Reading

variable {Key Value : Type} [PartialOrder Value] {reading : Reading Key Value Value}
  {told values : Key → Value}

open Classical in
/-- Only the values that are asked for have to be compared. -/
theorem eval_le (monotone : Monotone fun values => reading.eval values)
    (below : ∀ key ∈ reading.asked told, told key ≤ values key) :
    reading.eval told ≤ reading.eval values := by
  let lower : Key → Value := fun key => if key ∈ reading.asked told then told key else values key
  have same : reading.eval told = reading.eval lower :=
    eval_congr fun key member => (if_pos member).symm
  rw [same]
  refine monotone fun key => ?_
  by_cases member : key ∈ reading.asked told
  · simpa [lower, member] using below key member
  · simp [lower, member]

theorem le_eval (monotone : Monotone fun values => reading.eval values)
    (above : ∀ key ∈ reading.asked told, values key ≤ told key) :
    reading.eval values ≤ reading.eval told :=
  @eval_le Key Valueᵒᵈ _ reading told values monotone.dual above

end Reading

namespace ClosedSystem

variable {Key Value : Type} [PartialOrder Value] (system : ClosedSystem Key Value)

/-- The equations are monotone in all values. -/
def IsMonotone : Prop :=
  ∀ key ∈ system.keys, Monotone fun values => (system.equation key).eval values

variable {system} {height : Nat}

section Iteration

variable [OrderBot Value]

open Classical in
/-- The values that all equations give together. -/
noncomputable def advance (system : ClosedSystem Key Value) (values : Key → Value) (key : Key) :
    Value :=
  if key ∈ system.keys then (system.equation key).eval values else ⊥

theorem advance_monotone (isMonotone : system.IsMonotone) : Monotone system.advance := by
  intro values values' le key
  unfold advance
  split
  · exact isMonotone key ‹_› le
  · exact le_rfl

/-- There is a solution below all values that no equation raises. -/
theorem exists_least (isMonotone : system.IsMonotone)
    (bounded : ∀ series : LTSeries Value, series.length ≤ height) :
    ∃ least, system.Solution least ∧ ∀ values : Key → Value,
      (∀ key ∈ system.keys, (system.equation key).eval values ≤ values key) → least ≤ values := by
  let approximant : Nat → Key → Value := fun n => system.advance^[n] ⊥
  have next : ∀ n, approximant (n + 1) = system.advance (approximant n) := fun n =>
    Function.iterate_succ_apply' system.advance n ⊥
  have rises : ∀ n, approximant n ≤ approximant (n + 1) := fun n =>
    (advance_monotone isMonotone).monotone_iterate_of_le_map bot_le (Nat.le_succ n)
  -- the totals cannot rise for ever
  have stable : ∃ n, ∀ key ∈ system.keys, approximant n key = approximant (n + 1) key := by
    by_contra unstable
    push Not at unstable
    have atLeast : ∀ n, n ≤ total system.keys (approximant n) := by
      intro n
      induction n with
      | zero => exact Nat.zero_le _
      | succ n inductionHypothesis =>
          obtain ⟨key, member, differs⟩ := unstable n
          exact inductionHypothesis.trans_lt (total_lt bounded (rises n) member differs)
    have atMost := total_le bounded system.keys (approximant (system.keys.card * height + 1))
    have := atLeast (system.keys.card * height + 1)
    omega
  obtain ⟨n, stable⟩ := stable
  refine ⟨approximant n, fun key member => ?_, fun values prefixed => ?_⟩
  · rw [stable key member, next]
    exact (if_pos member).symm
  · clear stable
    induction n with
    | zero => exact bot_le
    | succ n inductionHypothesis =>
        rw [next]
        intro key
        unfold advance
        split
        · exact (isMonotone key ‹_› inductionHypothesis).trans (prefixed key ‹_›)
        · exact bot_le

end Iteration

/-! ## Passes -/

section Passes

variable [BEq Key] [Hashable Key] {base table final : Table Key Value}
  {former least values : Key → Value} {root key : Key} {value : Value} {passes : Nat}

/-- No value that is available is above the least solution if no provisional one is. -/
theorem Available.le_solution (isMonotone : system.IsMonotone) (solves : system.Solution least)
    (unsettled : ∀ key : Key, base.settled[key]? = none) (below : former ≤ least)
    (available : system.toEquationSystem.Available base former key value) : value ≤ least key := by
  induction available with
  | settled found => simp [unsettled] at found
  | former key => exact below key
  | computed inKeys told isValue _ inductionHypothesis =>
      rw [← isValue, ← solves _ inKeys]
      exact Reading.eval_le (isMonotone _ inKeys) inductionHypothesis

/-- No value that is available is below the provisional one if no equation lowers that. -/
theorem Available.former_le (isMonotone : system.IsMonotone)
    (unsettled : ∀ key : Key, base.settled[key]? = none)
    (raises : ∀ key ∈ system.keys, former key ≤ (system.equation key).eval former)
    (available : system.toEquationSystem.Available base former key value) : former key ≤ value := by
  induction available with
  | settled found => simp [unsettled] at found
  | former key => exact le_rfl
  | computed inKeys told isValue _ inductionHypothesis =>
      rw [← isValue]
      exact (raises _ inKeys).trans (Reading.le_eval (isMonotone _ inKeys) inductionHypothesis)

/-- The provisional values before a pass. -/
structure Climbs (system : ClosedSystem Key Value) (least : Key → Value) (passes : Nat)
    (former : Key → Value) : Prop where
  le_least : former ≤ least
  raises : ∀ key ∈ system.keys, former key ≤ (system.equation key).eval former
  passes_le : passes ≤ total system.keys former

/-- A pass that changes something climbs. -/
theorem Climbs.next [LawfulBEq Key] (isMonotone : system.IsMonotone)
    (bounded : ∀ series : LTSeries Value, series.length ≤ height) (solves : system.Solution least)
    (unsettled : ∀ key : Key, base.settled[key]? = none)
    (climbs : Climbs system least passes former)
    (pass : system.toEquationSystem.Pass base former root ∅ table)
    (changed : table.changed = true) :
    Climbs system least (passes + 1) fun key => table.initial key (system.bottom key) := by
  let later : Key → Value := fun key => table.initial key (system.bottom key)
  have later_of_evaluated : ∀ {key value}, table.pending[key]? = some ⟨value, .evaluated⟩ →
      later key = value := fun found => Table.initial_of_pending found
  have later_of_not : ∀ {key}, ¬ table.Evaluated key → later key = former key :=
    fun unevaluated => pass.initial _ unevaluated
  have available : ∀ key, system.toEquationSystem.Available base former key (later key) := by
    intro key
    by_cases evaluated : table.Evaluated key
    · obtain ⟨value, found⟩ := evaluated
      rw [later_of_evaluated found]
      exact pass.available found
    · rw [later_of_not evaluated]
      exact .former key
  have rises : former ≤ later := fun key =>
    Available.former_le isMonotone unsettled climbs.raises (available key)
  refine ⟨fun key => Available.le_solution isMonotone solves unsettled climbs.le_least
    (available key), fun key inKeys => ?_, ?_⟩
  · by_cases evaluated : table.Evaluated key
    · obtain ⟨value, found⟩ := evaluated
      obtain ⟨told, isValue, holds⟩ := pass.evaluated found
      change later key ≤ _
      rw [later_of_evaluated found, ← isValue]
      refine Reading.eval_le (isMonotone key inKeys) fun other member => ?_
      rcases pass.seen_cases (holds other member).1 with
        settled | evaluated | ⟨_, _, _, isFormer, _⟩
      · simp [unsettled] at settled
      · exact (later_of_evaluated evaluated).ge
      · rw [isFormer]
        exact rises other
    · change later key ≤ _
      rw [later_of_not evaluated]
      exact (climbs.raises key inKeys).trans (isMonotone key inKeys rises)
  · obtain ⟨key, value, found, differs⟩ := pass.changed changed
    rw [← later_of_evaluated found] at differs
    exact climbs.passes_le.trans_lt
      (total_lt bounded rises (pass.pending found).2.1 differs.symm)

theorem climbs_of_former [OrderBot Value] [LawfulBEq Key]
    (isMonotone : system.IsMonotone) (isBottom : ∀ key, system.bottom key = ⊥)
    (bounded : ∀ series : LTSeries Value, series.length ≤ height) (solves : system.Solution least)
    (unsettled : ∀ key : Key, base.settled[key]? = none)
    (following : system.toEquationSystem.Former base root passes former) :
    Climbs system least passes former := by
  induction following with
  | bottom =>
      have isBottom : system.toEquationSystem.bottom = ⊥ := funext isBottom
      rw [isBottom]
      exact ⟨bot_le, fun _ _ => bot_le, Nat.zero_le _⟩
  | next _ pass _ unstable climbs =>
      simp only [Table.unstable, Bool.and_eq_true] at unstable
      exact climbs.next isMonotone bounded solves unsettled pass unstable.2

open Classical in
/-- The value of a last pass that changed nothing is the one of the least solution. -/
theorem eq_least (isMonotone : system.IsMonotone) (solves : system.Solution least)
    (isLeast : ∀ values : Key → Value,
      (∀ key ∈ system.keys, (system.equation key).eval values ≤ values key) → least ≤ values)
    (unsettled : ∀ key : Key, base.settled[key]? = none) {Fresh : Key → Prop}
    (outcome : system.toEquationSystem.Outcome base root value final Fresh)
    (iterates : base.strategy.iterates = true) (complete : final.truncated = false)
    (below : ∀ {passes former}, system.toEquationSystem.Former base root passes former →
      former ≤ least) : value = least root := by
  obtain ⟨passes, former, following, available⟩ := outcome.available
  -- the values of the last pass, and the least ones where it did not go
  let values : Key → Value := fun key =>
    if Fresh key then (final.settled[key]?).getD (least key) else least key
  have values_of_fresh : ∀ {key value}, Fresh key → final.settled[key]? = some value →
      values key = value := by
    intro key value isFresh found
    simp [values, isFresh, found]
  have values_le : values ≤ least := by
    intro key
    by_cases isFresh : Fresh key
    · obtain ⟨value, found, _⟩ := outcome.fresh isFresh
      rw [values_of_fresh isFresh found]
      exact Available.le_solution isMonotone solves unsettled (below following)
        (available isFresh found)
    · simp [values, isFresh]
  have prefixed : ∀ key ∈ system.keys, (system.equation key).eval values ≤ values key := by
    intro key inKeys
    by_cases isFresh : Fresh key
    · obtain ⟨value, found, told, isValue, holds⟩ :=
        outcome.reports_of_fresh iterates complete isFresh
      rw [values_of_fresh isFresh found, ← isValue]
      refine Reading.le_eval (isMonotone key inKeys) fun other member => ?_
      obtain ⟨found, ⟨_, settled⟩ | isFresh⟩ := holds other member
      · simp [unsettled] at settled
      · exact (values_of_fresh isFresh found).le
    · calc (system.equation key).eval values
          ≤ (system.equation key).eval least := isMonotone key inKeys values_le
        _ = least key := solves key inKeys
        _ = values key := (if_neg isFresh).symm
  have root_eq := values_of_fresh outcome.fresh_root outcome.answered
  exact root_eq.symm.trans (le_antisymm (values_le root) (isLeast values prefixed root))

end Passes

section Evaluation

variable [OrderBot Value] [BEq Value] [LawfulBEq Value] [BEq Key] [LawfulBEq Key] [Hashable Key]
  {least : Key → Value} {maxPasses fuel : Nat} {root : Key}

theorem yields_eq_least (isMonotone : system.IsMonotone) (isBottom : ∀ key, system.bottom key = ⊥)
    (bounded : ∀ series : LTSeries Value, series.length ≤ height)
    (enough : system.keys.card * height + 1 ≤ maxPasses) (fuelEnough : system.keys.card < fuel)
    (inKeys : root ∈ system.keys) (solves : system.Solution least)
    (isLeast : ∀ values : Key → Value,
      (∀ key ∈ system.keys, (system.equation key).eval values ≤ values key) → least ≤ values) :
    (system.solution.solve fuel root).Yields (.start maxPasses) fun value after =>
      value = least root ∧ after.table.truncated = false ∧ after.Quiet := by
  classical
  let base : Table Key Value := .empty (.iterate maxPasses)
  have unsettled : ∀ key : Key, base.settled[key]? = none := Table.settled_empty _
  have climbs : ∀ {passes former}, system.toEquationSystem.Former base root passes former →
      Climbs system least passes former := fun following =>
    climbs_of_former isMonotone isBottom bounded solves unsettled following
  refine (system.solution_follows.yields_solve (fun _ => trivial) (Table.pending_empty _) inKeys
    fuelEnough (fun _ => Store.quiet_start maxPasses) rfl).mono ?_
  rintro value after ⟨quiet, ⟨_, settled⟩ | ⟨Fresh, outcome⟩⟩
  · simp at settled
  · have complete : after.table.truncated = false := by
      rw [← Bool.not_eq_true]
      intro truncated
      rcases outcome.exhausted truncated with truncated | ⟨former, following⟩
      · cases truncated
      -- as many passes would have raised the total above its bound
      · have atLeast := (climbs following).passes_le
        have atMost := total_le bounded system.keys former
        change maxPasses - 1 + 1 ≤ _ at atLeast
        omega
    exact ⟨eq_least isMonotone solves isLeast unsettled outcome rfl complete
      fun following => (climbs following).le_least, complete, quiet complete⟩

variable (system) in
/-- Iterated evaluation of monotone equations over an order of finite height, and a lattice is one,
answers with the least solution if there are enough passes. -/
theorem yields_least (isMonotone : system.IsMonotone) (isBottom : ∀ key, system.bottom key = ⊥)
    (bounded : ∀ series : LTSeries Value, series.length ≤ height)
    (enough : system.keys.card * height + 1 ≤ maxPasses) (fuelEnough : system.keys.card < fuel)
    (inKeys : root ∈ system.keys) :
    ∃ least, IsLeast {values | system.Solution values} least ∧
      (system.solution.solve fuel root).Yields (.start maxPasses) fun value after =>
        value = least root ∧ after.table.truncated = false ∧ after.Quiet := by
  obtain ⟨least, solves, isLeast⟩ := exists_least isMonotone bounded
  refine ⟨least, ⟨solves, fun values solves => isLeast values fun key inKeys =>
    (solves key inKeys).le⟩, ?_⟩
  exact yields_eq_least isMonotone isBottom bounded enough fuelEnough inKeys solves isLeast

end Evaluation

/-- `x₀ = x₁ ∨ x₂`, `x₁ = x₀ ∧ x₀` and `x₂ = true`, where the second operand is read only if the
first one does not decide. -/
def lazyOperators : ClosedSystem (Fin 3) Bool where
  keys := Finset.univ
  bottom _ := false
  equation
    | 0 => do if ← .read 1 then return true else .read 2
    | 1 => do if ← .read 0 then .read 0 else return false
    | 2 => return true
  closed
    | 0, _ => .bind (.read (Finset.mem_univ _)) fun
      | true => .pure true
      | false => .read (Finset.mem_univ _)
    | 1, _ => .bind (.read (Finset.mem_univ _)) fun
      | true => .read (Finset.mem_univ _)
      | false => .pure false
    | 2, _ => .pure true

theorem eval_lazyOperators (values : Fin 3 → Bool) :
    ∀ key, (lazyOperators.equation key).eval values = match key with
      | 0 => values 1 || values 2
      | 1 => values 0 && values 0
      | 2 => true
  | 0 => by
      change (if values 1 then _ else _ : Reading (Fin 3) Bool Bool).eval values = _
      cases isOne : values 1 <;> rfl
  | 1 => by
      change (if values 0 then _ else _ : Reading (Fin 3) Bool Bool).eval values = _
      cases isZero : values 0
      · rfl
      · exact isZero
  | 2 => rfl

theorem lazyOperators_isMonotone : lazyOperators.IsMonotone := by
  intro key _ values values' le
  simp only [eval_lazyOperators]
  match key with
  | 0 => exact sup_le_sup (le 1) (le 2)
  | 1 => exact inf_le_inf (le 0) (le 0)
  | 2 => exact le_rfl

theorem yields_least_lazyOperators :
    (lazyOperators.solution.solve 4 0).Yields (.start 4) fun value after =>
      value = true ∧ after.table.truncated = false ∧ after.Quiet := by
  obtain ⟨least, ⟨solves, _⟩, yields⟩ := yields_least lazyOperators lazyOperators_isMonotone
    (fun _ => rfl) (fun series => Nat.le_of_lt_succ series.length_lt_card)
    (show 3 * 1 + 1 ≤ 4 from le_rfl) (show 3 < 4 by decide) (Finset.mem_univ 0)
  refine yields.mono ?_
  rintro value after ⟨rfl, complete, quiet⟩
  refine ⟨?_, complete, quiet⟩
  have first := solves 0 (Finset.mem_univ 0)
  have third := solves 2 (Finset.mem_univ 2)
  rw [eval_lazyOperators] at first third
  rw [← first, ← third, Bool.or_true]

end ClosedSystem

end Residual.Memo
