import Residual.Proofs.Memo.LeastSolutions

/-!
# What calls store

A call commits everything that its passes came to, and a key that the last pass did not ask for any
more keeps the value of an earlier pass, which no equation has to give.  The values that an answer
rests on are those of the last pass, and they solve the equations.  If no equation chooses what it
asks for, there are no others.
-/

set_option autoImplicit false

namespace Residual.Memo

/-- The values that a table has settled, and bottoms elsewhere. -/
def Table.values {Key Value : Type} [BEq Key] [Hashable Key] (table : Table Key Value)
    (bottom : Key → Value) (key : Key) : Value :=
  (table.get? key).getD (bottom key)

namespace ClosedSystem

variable {Key Value : Type} [BEq Key] [Hashable Key] {before after table : Table Key Value}
  {root key : Key}

section

variable (system : ClosedSystem Key Value)

/-- What the equation of a key asks for if it is told the values of a table. -/
def asked (table : Table Key Value) (key : Key) : List Key :=
  (system.equation key).asked (table.values system.bottom)

/-- The value of a key is stored, and it is what the equation of the key gives if all that it asks
for is answered from the table, where it is stored. -/
def Solved (table : Table Key Value) (key : Key) : Prop :=
  table.get? key = some ((system.equation key).eval (table.values system.bottom)) ∧
    ∀ other ∈ system.asked table key, (table.get? other).isSome

/-- The call for `root` that made the second table of the first one answered by what it stored for
`key`. -/
def RestsOn (before after : Table Key Value) (root key : Key) : Prop :=
  before.get? root = none ∧ Relation.ReflTransGen
    (fun key other => other ∈ system.asked after key ∧ before.get? other = none) root key

/-- Calls of the function one after the other, and the keys that the answers of those calls that
stored them rest on. -/
inductive Calls [BEq Value] (maxPasses : Nat) : Store Key Value → (Key → Prop) → Prop where
  | start : Calls maxPasses (.start maxPasses) fun _ => False
  | solve {before after : Store Key Value} {Live : Key → Prop} {fuel : Nat} {root : Key}
      {value : Value} (calls : Calls maxPasses before Live) (inKeys : root ∈ system.keys)
      (enough : system.keys.card < fuel)
      (run : system.solution.solve fuel root before = .ok value after) :
      Calls maxPasses after fun key => Live key ∨ system.RestsOn before.table after.table root key

end

variable {system : ClosedSystem Key Value} {value : Value} {maxPasses : Nat} {Fresh : Key → Prop}

theorem values_eq (found : table.get? key = some value) :
    table.values system.bottom key = value := by
  simp [Table.values, found]

/-- What is solved stays so when more is stored. -/
theorem Solved.kept (solved : system.Solved before key)
    (kept : ∀ {key value}, before.get? key = some value → after.get? key = some value) :
    system.Solved after key := by
  obtain ⟨found, stored⟩ := solved
  have same : ∀ other ∈ system.asked before key,
      before.values system.bottom other = after.values system.bottom other := by
    intro other member
    obtain ⟨value, found⟩ := Option.isSome_iff_exists.mp (stored other member)
    rw [values_eq found, values_eq (kept found)]
  refine ⟨?_, fun other member => ?_⟩
  · rw [← Reading.eval_congr same]
    exact kept found
  · rw [asked, ← Reading.asked_congr same] at member
    obtain ⟨value, found⟩ := Option.isSome_iff_exists.mp (stored other member)
    exact Option.isSome_iff_exists.mpr ⟨value, kept found⟩

section Outcome

variable (outcome : system.toEquationSystem.Outcome before root value after Fresh)
  (iterates : before.strategy.iterates = true) (complete : after.truncated = false)

include outcome iterates complete

/-- The keys of the last pass are solved, and ask for each other or for what was stored before. -/
theorem solved_of_fresh (isFresh : Fresh key) : system.Solved after key ∧
    ∀ other ∈ system.asked after key, before.get? other = none → Fresh other := by
  obtain ⟨value, found, told, rfl, holds⟩ := outcome.reports_of_fresh iterates complete isFresh
  have same : ∀ other ∈ (system.equation key).asked told,
      told other = after.values system.bottom other := fun other member =>
    (values_eq (holds other member).1).symm
  have sameAsked := Reading.asked_congr same
  refine ⟨⟨?_, fun other member => ?_⟩, fun other member unsettled => ?_⟩
  · rw [← Reading.eval_congr same]
    exact found
  · rw [asked, ← sameAsked] at member
    exact Option.isSome_iff_exists.mpr ⟨told other, (holds other member).1⟩
  · rw [asked, ← sameAsked] at member
    rcases (holds other member).2 with ⟨value, settled⟩ | isFresh
    · exact absurd (unsettled.symm.trans settled) nofun
    · exact isFresh

/-- An answer rests on keys of the last pass. -/
theorem fresh_of_restsOn (rests : system.RestsOn before after root key) : Fresh key := by
  obtain ⟨_, path⟩ := rests
  induction path with
  | refl => exact outcome.fresh_root
  | tail _ asks inductionHypothesis =>
      exact (solved_of_fresh outcome iterates complete inductionHypothesis).2 _ asks.1 asks.2

end Outcome

section Calls

variable [BEq Value] {store : Store Key Value} {Live : Key → Prop}

/-- What calls leave: an idle table with solved keys. -/
structure Answered (system : ClosedSystem Key Value) (maxPasses : Nat) (store : Store Key Value)
    (Live : Key → Prop) : Prop where
  idle : ∀ key : Key, store.table.pending[key]? = none
  strategy_eq : store.table.strategy = .iterate maxPasses
  quiet : store.table.truncated = false → store.Quiet
  live : store.table.truncated = false → ∀ key, Live key → system.Solved store.table key
  stored : store.table.truncated = false → system.AsksAlways →
    ∀ key, (store.table.get? key).isSome → system.Solved store.table key

omit [BEq Value] in
theorem answered_start (system : ClosedSystem Key Value) (maxPasses : Nat) :
    system.Answered maxPasses (.start maxPasses) fun _ => False where
  idle := Table.pending_empty _
  strategy_eq := rfl
  quiet _ := Store.quiet_start maxPasses
  live _ _ := False.elim
  stored _ _ key isStored := by
    rw [Table.get?, Store.start, Table.settled_empty] at isStored
    cases isStored

variable [LawfulBEq Key] [LawfulBEq Value]

/-- One more call keeps what was solved and solves what its answer rests on. -/
theorem Answered.solve {before after : Store Key Value} {fuel : Nat}
    (answered : system.Answered maxPasses before Live) (inKeys : root ∈ system.keys)
    (enough : system.keys.card < fuel)
    (run : system.solution.solve fuel root before = .ok value after) :
    system.Answered maxPasses after fun key =>
      Live key ∨ system.RestsOn before.table after.table root key := by
  classical
  obtain ⟨value', after', run', quiet, known⟩ := system.solution_follows.yields_solve
    (fun _ => trivial) answered.idle inKeys enough answered.quiet rfl
  cases run'.symm.trans run
  rcases known with ⟨same, settled⟩ | ⟨Fresh, outcome⟩
  · change after.table = before.table at same
    refine ⟨?_, ?_, quiet, ?_, ?_⟩
    · rw [same]
      exact answered.idle
    · rw [same]
      exact answered.strategy_eq
    · intro complete key
      rw [same] at complete ⊢
      rintro (live | ⟨unsettled, _⟩)
      · exact answered.live complete key live
      · exact absurd (settled.symm.trans unsettled) nofun
    · rw [same]
      exact answered.stored
  · change system.toEquationSystem.Outcome before.table root value after.table Fresh at outcome
    have iterates : before.table.strategy.iterates = true := by
      rw [answered.strategy_eq]
      rfl
    have earlier : after.table.truncated = false → before.table.truncated = false := by
      intro complete
      rw [← Bool.not_eq_true] at complete ⊢
      exact fun truncated => complete (outcome.truncated truncated)
    refine ⟨outcome.idle, outcome.strategy_eq.trans answered.strategy_eq, quiet, ?_, ?_⟩
    · rintro complete key (live | rests)
      · exact (answered.live (earlier complete) key live).kept outcome.kept
      · exact (solved_of_fresh outcome iterates complete
          (fresh_of_restsOn outcome iterates complete rests)).1
    · intro complete always key isStored
      obtain ⟨value, found⟩ := Option.isSome_iff_exists.mp isStored
      rcases outcome.new found with settled | ⟨_, _, path, _⟩
      · exact (answered.stored (earlier complete) always key
          (Option.isSome_iff_exists.mpr ⟨value, settled⟩)).kept outcome.kept
      · have isStatic : system.toEquationSystem.IsStatic := fun _ _ _ needs => needs always
        exact (solved_of_fresh outcome iterates complete
          (outcome.fresh_of_path isStatic path)).1

theorem answered_of_calls (calls : system.Calls maxPasses store Live) :
    system.Answered maxPasses store Live := by
  induction calls with
  | start => exact answered_start system maxPasses
  | solve _ inKeys enough run answered => exact answered.solve inKeys enough run

/-- After any calls whose passes did not run out, the values that their answers rest on solve the
equations, and so do all that are stored if no equation chooses what it asks for. -/
theorem solved_of_calls (calls : system.Calls maxPasses store Live)
    (complete : store.table.truncated = false)
    (relevant : Live key ∨ (system.AsksAlways ∧ (store.table.get? key).isSome)) :
    system.Solved store.table key := by
  have answered := answered_of_calls calls
  rcases relevant with live | ⟨always, isStored⟩
  · exact answered.live complete key live
  · exact answered.stored complete always key isStored

end Calls

theorem solved_of_calls_lazyOperators :
    ∃ store Live, lazyOperators.Calls 4 store Live ∧ store.table.truncated = false ∧ Live 1 ∧
      lazyOperators.Solved store.table 1 := by
  obtain ⟨least, solves, isLeast⟩ :=
    exists_least lazyOperators_isMonotone fun series => Nat.le_of_lt_succ series.length_lt_card
  obtain ⟨value, store, run, _, complete, _⟩ := yields_eq_least lazyOperators_isMonotone
    (fun _ => rfl) (fun series => Nat.le_of_lt_succ series.length_lt_card)
    (show 3 * 1 + 1 ≤ 4 from le_rfl) (show 3 < 4 by decide) (Finset.mem_univ 0) solves isLeast
  have calls := Calls.solve .start (Finset.mem_univ 0) (show 3 < 4 by decide) run
  have unsettled : ∀ key, (Table.empty (.iterate 4) : Table (Fin 3) Bool).get? key = none :=
    Table.settled_empty _
  have live : lazyOperators.RestsOn (.empty (.iterate 4)) store.table 0 1 :=
    ⟨unsettled 0, .single ⟨List.mem_cons_self, unsettled 1⟩⟩
  exact ⟨store, _, calls, complete, .inr live, solved_of_calls calls complete (.inl (.inr live))⟩

end ClosedSystem

end Residual.Memo
