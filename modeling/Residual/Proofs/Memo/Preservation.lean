import Residual.Proofs.Memo.Evaluation

/-!
# What evaluations keep

A computation keeps a relation if every state that it leaves is related to the one it began in.
Relations that are reflexive and transitive are kept step by step, and an evaluation of a memoized
function keeps one that its equations and the changes of its table keep, whatever state the table
is in.
-/

set_option autoImplicit false

namespace Residual.Memo

variable {State Key Value Answer Result : Type}

/-- Wherever the computation starts, it leaves a related state if it answers. -/
def Keeps (related : State → State → Prop) (computation : Eval State Answer) : Prop :=
  ∀ state, Ensures computation state fun _ after => related state after

section Steps

variable {related : State → State → Prop}

theorem keeps_lift (computation : StateM State Answer)
    (keeps : ∀ state, related state (computation state).2) :
    Keeps related (liftM computation : Eval State Answer) :=
  fun state => (Eval.ensures_lift _ _).mpr (keeps state)

theorem keeps_modify (change : State → State) (keeps : ∀ state, related state (change state)) :
    Keeps related (modify change : Eval State PUnit) :=
  fun state => (ensures_modify _ _).mpr (keeps state)

/-- Looking at the state changes nothing. -/
theorem keeps_get_bind {next : State → Eval State Answer}
    (keeps : ∀ state, Keeps related (next state)) : Keeps related (get >>= next) := by
  intro state
  rw [ensures_bind, ensures_get]
  exact keeps state state

variable (refl : ∀ state, related state state)
  (trans : ∀ ⦃first second third⦄, related first second → related second third →
    related first third)

theorem keeps_pure (refl : ∀ state, related state state) (answer : Answer) :
    Keeps related (pure answer) :=
  fun state => (ensures_pure _ _).mpr (refl state)

include trans

theorem Keeps.bind {computation : Eval State Answer} {next : Answer → Eval State Result}
    (first : Keeps related computation) (rest : ∀ answer, Keeps related (next answer)) :
    Keeps related (computation >>= next) := by
  intro state
  refine (ensures_bind _ _ _).mpr ((first state).mono fun answer between begun => ?_)
  exact (rest answer between).mono fun _ _ ended => trans begun ended

include refl

/-- Answering all questions of a reading. -/
theorem keeps_run {recur : Key → Eval State Value} (keeps : ∀ key, Keeps related (recur key))
    (reading : Reading Key Value Answer) : Keeps related (reading.run recur) := by
  induction reading with
  | answer result => exact keeps_pure refl result
  | ask key next inductionHypothesis => exact (keeps key).bind trans inductionHypothesis

end Steps

namespace Recursion

variable [BEq Key] [Hashable Key] {function : Recursion State Key Value}
  {related : State → State → Prop}

/-- The parts of a memoized function keep a relation, which can be composed.  No evaluation changes the
strategy of its table. -/
structure Preserves (function : Recursion State Key Value) (related : State → State → Prop) :
    Prop where
  refl : ∀ state, related state state
  trans : ∀ ⦃first second third⦄, related first second → related second third →
    related first third
  modifyTable : ∀ f, (∀ table, (f table).strategy = table.strategy) →
    ∀ state, related state (function.modifyTable f state)
  noteRepeated : ∀ state, related state (function.noteRepeated state)
  noteExhausted : ∀ passes state, related state (function.noteExhausted passes state)
  bottom : ∀ key, Keeps related (function.bottom key)
  step : ∀ {recur}, (∀ key, Keeps related (recur key)) →
    ∀ key, Keeps related (function.step recur key)
  finish : ∀ key bottom value, Keeps related (function.finish key bottom value)

namespace Preserves

variable (preserves : function.Preserves related)

include preserves

theorem keeps_passes {key : Key} {pass : Eval State Value} (keeps : Keeps related pass)
    (repetitions : Nat) : Keeps related (function.passes key pass repetitions) := by
  have commits : Keeps related (modify (function.modifyTable Table.commit)) :=
    keeps_modify _ (preserves.modifyTable _ fun _ => rfl)
  induction repetitions with
  | zero =>
      have givesUp : Keeps related function.giveUp :=
        (keeps_modify _ fun state => preserves.noteExhausted _ state).bind preserves.trans fun _ =>
          keeps_modify _ (preserves.modifyTable _ fun _ => rfl)
      refine keeps.bind preserves.trans fun value => keeps_get_bind fun state => ?_
      split
      · exact givesUp.bind preserves.trans fun _ => keeps_pure preserves.refl value
      · exact commits.bind preserves.trans fun _ => keeps_pure preserves.refl value
  | succ repetitions inductionHypothesis =>
      refine keeps.bind preserves.trans fun value => keeps_get_bind fun state => ?_
      split
      · exact (keeps_modify _ (preserves.modifyTable (Table.restart key) fun _ => rfl)).bind
          preserves.trans fun _ => (keeps_modify _ preserves.noteRepeated).bind preserves.trans fun _ =>
            inductionHypothesis
      · exact commits.bind preserves.trans fun _ => keeps_pure preserves.refl value

/-- The relation is kept by every evaluation. -/
theorem keeps_solve [BEq Value] (fuel : Nat) (key : Key) :
    Keeps related (function.solve fuel key) := by
  induction fuel generalizing key with
  | zero => exact fun _ => ensures_throw _ _
  | succ fuel inductionHypothesis =>
      have keepsPass : ∀ bottom, Keeps related (function.pass fuel key bottom) := by
        intro bottom
        refine (preserves.step inductionHypothesis key).bind preserves.trans fun value => ?_
        refine (preserves.finish key bottom value).bind preserves.trans fun value => ?_
        exact (keeps_modify _ (preserves.modifyTable (Table.record key value) fun _ => rfl)).bind
          preserves.trans fun _ => keeps_pure preserves.refl value
      intro state
      cases looked : (function.table state).lookup key with
      | known value => exact (ensures_solve_known looked).mpr (preserves.refl state)
      | reentrant value =>
          exact (ensures_solve_reentrant looked).mpr
            (preserves.modifyTable Table.markReentered (fun _ => rfl) state)
      | unknown =>
          cases inUse : (function.table state).inUse with
          | true =>
              refine (ensures_solve_nested looked inUse).mpr ?_
              refine (preserves.bottom key state).mono fun bottom between begun => ?_
              refine (keepsPass bottom _).mono fun _ _ ended => ?_
              exact preserves.trans begun (preserves.trans
                (preserves.modifyTable (Table.start key bottom) (fun _ => rfl) _) ended)
          | false =>
              refine (ensures_solve_outermost looked inUse).mpr ?_
              refine (preserves.bottom key state).mono fun bottom between begun => ?_
              refine (preserves.keeps_passes (keepsPass bottom) _ _).mono fun _ _ ended => ?_
              exact preserves.trans begun (preserves.trans (preserves.modifyTable
                (fun table => table.startPasses.start key bottom) (fun _ => rfl) _) ended)

end Preserves

end Recursion

end Residual.Memo
