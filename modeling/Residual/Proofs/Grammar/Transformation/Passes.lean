import Residual.Proofs.Grammar.Analyses

/-!
# How a transformation is evaluated

A key is entered with a new link for its result, and left when the link is bound to the result.
The lemmas follow an evaluation between the two, where it is nested in another one and where it is
the only pass of an outermost call.
-/

set_option autoImplicit false

namespace Residual.Grammar

open Memo

variable {Key : Type} [BEq Key] [Hashable Key] {table : Tables → Table Key ExprId}
  {modifyTable : (Table Key ExprId → Table Key ExprId) → Tables → Tables}
  {step : (Key → Eval Grammar ExprId) → Key → Eval Grammar ExprId} {fuel : Nat} {key : Key}
  {value link : ExprId} {state : Grammar} {post : ExprId → Grammar → Prop}

/-- The evaluation of a key begins with a new link for its result. -/
def enter (modifyTable : (Table Key ExprId → Table Key ExprId) → Tables → Tables) (key : Key)
    (grammar : Grammar) : Grammar :=
  { grammar with
    arena := grammar.arena.reserve.2
    tables := modifyTable (Table.start key grammar.arena.reserve.1) grammar.tables }

/-- It ends when the link is bound to the result, which is recorded for the key. -/
def leave (modifyTable : (Table Key ExprId → Table Key ExprId) → Tables → Tables) (key : Key)
    (link value : ExprId) (grammar : Grammar) : Grammar :=
  { grammar with
    arena := (grammar.arena.bind link value).2
    tables := modifyTable (Table.record key value) grammar.tables }

/-- The grammar with one table changed. -/
def changeTable (modifyTable : (Table Key ExprId → Table Key ExprId) → Tables → Tables)
    (f : Table Key ExprId → Table Key ExprId) (grammar : Grammar) : Grammar :=
  { grammar with tables := modifyTable f grammar.tables }

/-- A pass is a step, and the key is left with its value. -/
theorem ensures_transformation_pass
    (stepped : Ensures (step ((transformation table modifyTable step).solve fuel) key) state
      fun value between => post value (between.leave modifyTable key link value)) :
    Ensures ((transformation table modifyTable step).pass fuel key link) state post := by
  unfold Recursion.pass
  refine (ensures_bind _ _ _).mpr (stepped.mono fun value between left => ?_)
  change Ensures (((liftM (bindLink link value) : Eval Grammar Bool) >>= fun _ => pure value) >>= _)
    between post
  simp only [ensures_bind, Eval.ensures_lift, ensures_pure, ensures_modify]
  exact left

theorem ensures_transformation_nested (isUnknown : (table state.tables).lookup key = .unknown)
    (inUse : (table state.tables).inUse = true)
    (passed : Ensures ((transformation table modifyTable step).pass fuel key state.arena.reserve.1)
      (state.enter modifyTable key) post) :
    Ensures ((transformation table modifyTable step).solve (fuel + 1) key) state post := by
  refine (Recursion.ensures_solve_nested isUnknown inUse).mpr ?_
  change Ensures (liftM reserve : Eval Grammar ExprId) state _
  rw [Eval.ensures_lift]
  exact passed

/-- The results of the only pass of an outermost call are final. -/
theorem ensures_transformation_outermost (isField : Tables.IsField table modifyTable)
    (isUnknown : (table state.tables).lookup key = .unknown)
    (notInUse : (table state.tables).inUse = false)
    (singlePass : (table state.tables).strategy = .singlePass)
    (passed : Ensures ((transformation table modifyTable step).pass fuel key state.arena.reserve.1)
      ((state.changeTable modifyTable Table.startPasses).enter modifyTable key) fun value after =>
        (table after.tables).strategy = .singlePass ∧
          post value (after.changeTable modifyTable Table.commit)) :
    Ensures ((transformation table modifyTable step).solve (fuel + 1) key) state post := by
  refine (Recursion.ensures_solve_outermost isUnknown notInUse).mpr ?_
  change Ensures (liftM reserve : Eval Grammar ExprId) state _
  rw [Eval.ensures_lift]
  let start : Table Key ExprId → Table Key ExprId := fun table =>
    table.startPasses.start key state.arena.reserve.1
  have isStart : modifyTable start state.tables = modifyTable
      (Table.start key state.arena.reserve.1) (modifyTable Table.startPasses state.tables) :=
    (isField.modify_modify (Table.start key state.arena.reserve.1) Table.startPasses _).symm
  have once : (table (modifyTable start state.tables)).strategy.repetitions = 0 := by
    rw [isField.table_modify]
    change (table state.tables).strategy.repetitions = 0
    rw [singlePass]
    rfl
  change Ensures (Recursion.passes (transformation table modifyTable step) key _
    (table (modifyTable start state.tables)).strategy.repetitions)
    { state with arena := state.arena.reserve.2, tables := modifyTable start state.tables } post
  rw [once, isStart, Recursion.passes, ensures_bind]
  refine passed.mono fun value after passed => ?_
  obtain ⟨singlePass, committed⟩ := passed
  have stable : ((transformation table modifyTable step).table after).unstable = false := by
    change (table after.tables).unstable = false
    simp [Table.unstable, singlePass, Strategy.iterates]
  simp only [ensures_bind, ensures_get, stable, Bool.false_eq_true, if_false, ensures_modify,
    ensures_pure]
  exact committed

end Residual.Grammar
