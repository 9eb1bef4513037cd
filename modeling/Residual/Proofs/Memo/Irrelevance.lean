import Residual.Proofs.Memo.Evaluation

/-!
# What evaluations do not look at

A computation ignores a change of the state if it answers the same before and after the change, and if
what it leaves differs by the change alone.  An evaluation of a memoized function ignores a change that
its equations ignore and that has nothing to do with its table.
-/

set_option autoImplicit false

namespace Residual.Memo

variable {State Key Value Answer Result : Type}

/-- A computation that failed does not go on. -/
theorem bind_of_error {computation : Eval State Answer} {next : Answer → Eval State Result}
    {before after : State} {halt : Halt} (failed : computation before = .error halt after) :
    (computation >>= next) before = .error halt after := by
  simp only [bind, EStateM.bind, failed]

/-- The same outcome in a changed state. -/
def changed (change : State → State) :
    EStateM.Result Halt State Answer → EStateM.Result Halt State Answer
  | .ok answer after => .ok answer (change after)
  | .error halt after => .error halt (change after)

/-- The change makes no difference to the computation, and is there afterwards. -/
def Ignores (change : State → State) (computation : Eval State Answer) : Prop :=
  ∀ state, computation (change state) = changed change (computation state)

/-- The same for a computation that cannot fail. -/
def Indifferent (change : State → State) (computation : StateM State Answer) : Prop :=
  ∀ state, computation (change state) = ((computation state).1, change (computation state).2)

section Steps

variable {change : State → State}

theorem indifferent_pure (answer : Answer) : Indifferent change (pure answer) :=
  fun _ => rfl

theorem Indifferent.bind {computation : StateM State Answer} {next : Answer → StateM State Result}
    (first : Indifferent change computation) (rest : ∀ answer, Indifferent change (next answer)) :
    Indifferent change (computation >>= next) := by
  intro state
  change next (computation (change state)).1 (computation (change state)).2 = _
  rw [first state]
  exact rest _ _

theorem ignores_pure (answer : Answer) : Ignores change (pure answer) :=
  fun _ => rfl

theorem ignores_lift (computation : StateM State Answer)
    (indifferent : Indifferent change computation) :
    Ignores change (liftM computation : Eval State Answer) := by
  intro state
  change EStateM.Result.ok (computation (change state)).1 (computation (change state)).2 = _
  rw [indifferent]
  rfl

theorem ignores_modify (f : State → State) (commutes : ∀ state, f (change state) = change (f state)) :
    Ignores change (modify f : Eval State PUnit) :=
  fun state => congrArg (EStateM.Result.ok PUnit.unit) (commutes state)

/-- Looking at what does not change. -/
theorem ignores_get_bind {next : State → Eval State Answer}
    (same : ∀ state, next (change state) = next state) (ignores : ∀ state, Ignores change (next state)) :
    Ignores change (get >>= next) := by
  intro state
  rw [bind_get, bind_get, same]
  exact ignores state state

theorem Ignores.bind {computation : Eval State Answer} {next : Answer → Eval State Result}
    (first : Ignores change computation) (rest : ∀ answer, Ignores change (next answer)) :
    Ignores change (computation >>= next) := by
  intro state
  have begun := first state
  cases ran : computation state with
  | ok answer between =>
      rw [ran] at begun
      rw [bind_of_ok begun, bind_of_ok ran]
      exact rest answer between
  | error halt between =>
      rw [ran] at begun
      rw [bind_of_error begun, bind_of_error ran]
      rfl

/-- Answering all questions of a reading. -/
theorem ignores_run {recur : Key → Eval State Value} (ignores : ∀ key, Ignores change (recur key))
    (reading : Reading Key Value Answer) : Ignores change (reading.run recur) := by
  induction reading with
  | answer result => exact ignores_pure result
  | ask key next inductionHypothesis => exact (ignores key).bind inductionHypothesis

/-- If it does not answer then the fallback is the answer, with and without the change. -/
theorem Ignores.settle {computation : Eval State Answer} (ignores : Ignores change computation)
    (fallback : Answer) : Indifferent change (computation.settle fallback) := by
  intro state
  unfold Eval.settle
  rw [ignores state]
  cases computation state <;> rfl

end Steps

namespace Recursion

variable [BEq Key] [Hashable Key] {function : Recursion State Key Value} {change : State → State}

/-- The change has nothing to do with the table, and the parts of the function ignore it. -/
structure Disregards (function : Recursion State Key Value) (change : State → State) : Prop where
  table : ∀ state, function.table (change state) = function.table state
  modifyTable : ∀ f state, function.modifyTable f (change state) = change (function.modifyTable f state)
  noteRepeated : ∀ state, function.noteRepeated (change state) = change (function.noteRepeated state)
  noteExhausted : ∀ passes state,
    function.noteExhausted passes (change state) = change (function.noteExhausted passes state)
  bottom : ∀ key, Ignores change (function.bottom key)
  step : ∀ {recur}, (∀ key, Ignores change (recur key)) →
    ∀ key, Ignores change (function.step recur key)
  finish : ∀ key bottom value, Ignores change (function.finish key bottom value)

namespace Disregards

variable (disregards : function.Disregards change)

include disregards

theorem ignores_modifyTable (f : Table Key Value → Table Key Value) :
    Ignores change (modify (function.modifyTable f)) :=
  ignores_modify _ (disregards.modifyTable f)

theorem ignores_giveUp : Ignores change function.giveUp := by
  refine (ignores_modify _ fun state => ?_).bind fun _ => disregards.ignores_modifyTable _
  rw [disregards.table, disregards.noteExhausted]

theorem ignores_passes {key : Key} {pass : Eval State Value} (ignores : Ignores change pass)
    (repetitions : Nat) : Ignores change (function.passes key pass repetitions) := by
  have commits := disregards.ignores_modifyTable Table.commit
  induction repetitions with
  | zero =>
      refine ignores.bind fun value => ignores_get_bind (fun state => ?_) fun state => ?_
      · rw [disregards.table]
      · split
        · exact disregards.ignores_giveUp.bind fun _ => ignores_pure value
        · exact commits.bind fun _ => ignores_pure value
  | succ repetitions inductionHypothesis =>
      refine ignores.bind fun value => ignores_get_bind (fun state => ?_) fun state => ?_
      · rw [disregards.table]
      · split
        · exact (disregards.ignores_modifyTable (Table.restart key)).bind fun _ =>
            (ignores_modify _ disregards.noteRepeated).bind fun _ => inductionHypothesis
        · exact commits.bind fun _ => ignores_pure value

/-- Every evaluation ignores the change. -/
theorem ignores_solve [BEq Value] (fuel : Nat) (key : Key) :
    Ignores change (function.solve fuel key) := by
  induction fuel generalizing key with
  | zero => exact fun _ => rfl
  | succ fuel inductionHypothesis =>
      have ignoresPass : ∀ bottom, Ignores change (function.pass fuel key bottom) := fun bottom =>
        (disregards.step inductionHypothesis key).bind fun value =>
          (disregards.finish key bottom value).bind fun value =>
            (disregards.ignores_modifyTable (Table.record key value)).bind fun _ =>
              ignores_pure value
      intro state
      have sameTable := disregards.table state
      cases looked : (function.table state).lookup key with
      | known value => rw [solve_of_known looked, solve_of_known (sameTable ▸ looked)]; rfl
      | reentrant value =>
          rw [solve_of_reentrant looked, solve_of_reentrant (sameTable ▸ looked),
            disregards.modifyTable]
          rfl
      | unknown =>
          cases inUse : (function.table state).inUse with
          | true =>
              rw [solve_of_nested looked inUse,
                solve_of_nested (sameTable ▸ looked) (sameTable ▸ inUse)]
              refine (disregards.bottom key).bind (fun bottom => ?_) state
              exact (disregards.ignores_modifyTable _).bind fun _ => ignoresPass bottom
          | false =>
              rw [solve_of_outermost looked inUse,
                solve_of_outermost (sameTable ▸ looked) (sameTable ▸ inUse)]
              refine (disregards.bottom key).bind (fun bottom => ?_) state
              refine (disregards.ignores_modifyTable _).bind fun _ =>
                ignores_get_bind (fun state => ?_) fun state =>
                  disregards.ignores_passes (ignoresPass bottom) _
              rw [disregards.table]

end Disregards

/-- A function of readings ignores a change that the readings do not see. -/
theorem Disregards.ofReadings {table : State → Table Key Value}
    {modifyTable : (Table Key Value → Table Key Value) → State → State} {bottom : Key → Value}
    {equation : State → Key → Reading Key Value Value} {noteRepeated : State → State}
    {noteExhausted : Nat → State → State}
    (sameTable : ∀ state, table (change state) = table state)
    (sameModify : ∀ f state, modifyTable f (change state) = change (modifyTable f state))
    (sameEquation : ∀ state, equation (change state) = equation state)
    (sameRepeated : ∀ state, noteRepeated (change state) = change (noteRepeated state))
    (sameExhausted : ∀ passes state,
      noteExhausted passes (change state) = change (noteExhausted passes state)) :
    (ofReadings table modifyTable bottom equation noteRepeated noteExhausted).Disregards change where
  table := sameTable
  modifyTable := sameModify
  noteRepeated := sameRepeated
  noteExhausted := sameExhausted
  bottom key := ignores_pure (bottom key)
  step {recur} ignores key := by
    refine ignores_get_bind (fun state => ?_) fun state => ignores_run ignores (equation state key)
    rw [sameEquation]
  finish _ _ value := ignores_pure value

end Recursion

end Residual.Memo
