import Residual.Proofs.Memo.Outcomes

/-!
# Evaluations answer

A function that follows a system of readings is evaluated totally: the keys on the stack are
distinct, so that the number of keys is fuel enough, and its outermost calls settle values as
`EquationSystem.Settles` says.
-/

set_option autoImplicit false

namespace Residual.Memo

variable {State Key Value : Type} [BEq Key] [Hashable Key]

namespace Recursion

open Eval

/-- One evaluation of a key that is not known yet. -/
def pass [BEq Value] (function : Recursion State Key Value) (fuel : Nat) (key : Key)
    (bottom : Value) : Eval State Value := do
  let value ← function.step (function.solve fuel) key
  let value ← function.finish key bottom value
  modify (function.modifyTable (Table.record key value))
  return value

section Solving

variable [BEq Value] {function : Recursion State Key Value} {fuel : Nat} {key : Key}
  {value : Value} {state : State} {post : Value → State → Prop}

omit [BEq Value] in
theorem lookup_of_known (isKnown : (function.table state).lookup key = .known value) :
    function.lookup key state = .ok (some value) state := by
  simp only [lookup, bind_get, isKnown]
  rfl

omit [BEq Value] in
theorem lookup_of_reentrant (isReentrant : (function.table state).lookup key = .reentrant value) :
    function.lookup key state =
      .ok (some value) (function.modifyTable Table.markReentered state) := by
  simp only [lookup, bind_get, isReentrant]
  rfl

omit [BEq Value] in
theorem lookup_of_unknown (isUnknown : (function.table state).lookup key = .unknown) :
    function.lookup key state = .ok none state := by
  simp only [lookup, bind_get, isUnknown]
  rfl

theorem solve_of_known (isKnown : (function.table state).lookup key = .known value) :
    function.solve (fuel + 1) key state = (pure value : Eval State Value) state := by
  rw [solve, bind_of_ok (lookup_of_known isKnown)]

theorem solve_of_reentrant (isReentrant : (function.table state).lookup key = .reentrant value) :
    function.solve (fuel + 1) key state =
      (pure value : Eval State Value) (function.modifyTable Table.markReentered state) := by
  rw [solve, bind_of_ok (lookup_of_reentrant isReentrant)]

theorem solve_of_nested (isUnknown : (function.table state).lookup key = .unknown)
    (inUse : (function.table state).inUse = true) :
    function.solve (fuel + 1) key state = (do
      let bottom ← function.bottom key
      modify (function.modifyTable (Table.start key bottom))
      function.pass fuel key bottom) state := by
  rw [solve, bind_of_ok (lookup_of_unknown isUnknown)]
  simp only [bind_get, inUse, Bool.not_true, Bool.false_eq_true, if_false]
  rfl

theorem solve_of_outermost (isUnknown : (function.table state).lookup key = .unknown)
    (idle : (function.table state).inUse = false) :
    function.solve (fuel + 1) key state = (do
      let bottom ← function.bottom key
      modify (function.modifyTable fun table => table.startPasses.start key bottom)
      function.passes key (function.pass fuel key bottom)
        (function.table (← get)).strategy.repetitions) state := by
  rw [solve, bind_of_ok (lookup_of_unknown isUnknown)]
  simp only [bind_get, idle, Bool.not_false, if_true]
  rfl

theorem yields_solve_known (isKnown : (function.table state).lookup key = .known value) :
    (function.solve (fuel + 1) key).Yields state post ↔ post value state := by
  simp only [yields_congr (solve_of_known isKnown), yields_pure]

theorem yields_solve_reentrant (isReentrant : (function.table state).lookup key = .reentrant value) :
    (function.solve (fuel + 1) key).Yields state post ↔
      post value (function.modifyTable Table.markReentered state) := by
  simp only [yields_congr (solve_of_reentrant isReentrant), yields_pure]

theorem yields_solve_nested (isUnknown : (function.table state).lookup key = .unknown)
    (inUse : (function.table state).inUse = true) :
    (function.solve (fuel + 1) key).Yields state post ↔
      (function.bottom key).Yields state fun bottom between =>
        (function.pass fuel key bottom).Yields
          (function.modifyTable (Table.start key bottom) between) post := by
  simp only [yields_congr (solve_of_nested isUnknown inUse), yields_bind, yields_modify]

theorem yields_solve_outermost (isUnknown : (function.table state).lookup key = .unknown)
    (idle : (function.table state).inUse = false) :
    (function.solve (fuel + 1) key).Yields state post ↔
      (function.bottom key).Yields state fun bottom between =>
        let started :=
          function.modifyTable (fun table => table.startPasses.start key bottom) between
        (function.passes key (function.pass fuel key bottom)
          (function.table started).strategy.repetitions).Yields started post := by
  simp only [yields_congr (solve_of_outermost isUnknown idle), yields_bind, yields_modify, yields_get]

omit [BEq Value] in
/-- Where a single pass is made, it is final. -/
theorem yields_passes_singlePass {pass : Eval State Value}
    (yields : pass.Yields state fun value after =>
      (function.table after).strategy = .singlePass ∧
        post value (function.modifyTable Table.commit after)) :
    (function.passes key pass 0).Yields state post := by
  rw [passes, yields_bind]
  refine yields.mono fun value after ⟨singlePass, holds⟩ => ?_
  have stable : (function.table after).unstable = false := by
    simp [Table.unstable, singlePass, Strategy.iterates]
  simp only [yields_bind, yields_get, stable, Bool.false_eq_true, if_false, yields_modify,
    yields_pure]
  exact holds

theorem ensures_solve_known (isKnown : (function.table state).lookup key = .known value) :
    Ensures (function.solve (fuel + 1) key) state post ↔ post value state := by
  simp only [ensures_congr (solve_of_known isKnown), ensures_pure]

theorem ensures_solve_reentrant
    (isReentrant : (function.table state).lookup key = .reentrant value) :
    Ensures (function.solve (fuel + 1) key) state post ↔
      post value (function.modifyTable Table.markReentered state) := by
  simp only [ensures_congr (solve_of_reentrant isReentrant), ensures_pure]

theorem ensures_solve_nested (isUnknown : (function.table state).lookup key = .unknown)
    (inUse : (function.table state).inUse = true) :
    Ensures (function.solve (fuel + 1) key) state post ↔
      Ensures (function.bottom key) state fun bottom between =>
        Ensures (function.pass fuel key bottom)
          (function.modifyTable (Table.start key bottom) between) post := by
  simp only [ensures_congr (solve_of_nested isUnknown inUse), ensures_bind, ensures_modify]

theorem ensures_solve_outermost (isUnknown : (function.table state).lookup key = .unknown)
    (idle : (function.table state).inUse = false) :
    Ensures (function.solve (fuel + 1) key) state post ↔
      Ensures (function.bottom key) state fun bottom between =>
        let started :=
          function.modifyTable (fun table => table.startPasses.start key bottom) between
        Ensures (function.passes key (function.pass fuel key bottom)
          (function.table started).strategy.repetitions) started post := by
  simp only [ensures_congr (solve_of_outermost isUnknown idle), ensures_bind, ensures_modify, ensures_get]

end Solving

end Recursion

/-- In the states of a context, the function evaluates a system of readings and changes nothing
but its table. -/
structure Recursion.Follows (function : Recursion State Key Value) (Context : State → Prop)
    (system : EquationSystem Key Value) : Prop where
  table_modify : ∀ f state,
    function.table (function.modifyTable f state) = f (function.table state)
  context_modify : ∀ {state} f, (∀ table, (f table).truncated = table.truncated) → Context state →
    Context (function.modifyTable f state)
  table_noteRepeated : ∀ state, function.table (function.noteRepeated state) = function.table state
  context_noteRepeated : ∀ {state}, Context state → Context (function.noteRepeated state)
  table_noteExhausted : ∀ passes state,
    function.table (function.noteExhausted passes state) = function.table state
  context_giveUp : ∀ {state} passes, Context state →
    Context (function.modifyTable (fun table => table.commit.markTruncated)
      (function.noteExhausted passes state))
  bottom_eq : ∀ key, function.bottom key = pure (system.bottom key)
  finish_eq : ∀ key bottom value, function.finish key bottom value = pure value
  step_eq : ∀ {state} recur key, key ∈ system.keys → Context state →
    function.step recur key state = (system.equation key).run recur state

namespace Recursion.Follows

open Eval EquationSystem

variable [LawfulBEq Key] [DecidableEq Key] [BEq Value] [LawfulBEq Value]
  {function : Recursion State Key Value} {Context : State → Prop} {system : EquationSystem Key Value}
  {base : Table Key Value} {former : Key → Value} {root key : Key} {stack : Finset Key}
  {state : State} {fuel : Nat}

/-- A nested call of the function during a pass for `root`. -/
def Nested (function : Recursion State Key Value) (Context : State → Prop)
    (system : EquationSystem Key Value) (base : Table Key Value) (former : Key → Value) (root : Key)
    (fuel : Nat) : Prop :=
  ∀ {key stack state}, Context state → system.Pass base former root stack (function.table state) →
    stack.Nonempty → (system.keys \ stack).card < fuel → key ∈ system.keys →
    (base.settled[key]? = none → system.Path base root key) →
    (∀ other ∈ stack, Relation.TransGen system.Asks other key) →
    (function.solve fuel key).Yields state fun value after =>
      Context after ∧ system.Pass base former root stack (function.table after) ∧
        Proceeds (function.table state) (function.table after) ∧ system.Bound key value ∧
        EquationSystem.Told base former stack (function.table after) key value ∧
        ∀ asking, (key ∈ stack → system.Cyclic asking) →
          system.Seen base former (function.table after) asking key value

variable (follows : function.Follows Context system)
  (settledBound : ∀ {key : Key} {value : Value}, base.settled[key]? = some value → system.Bound key value)

include follows

/-- Evaluating the key on top of the stack. -/
theorem yields_pass (nested : Nested function Context system base former root fuel)
    (context : Context state)
    (pass : system.Pass base former root (insert key stack) (function.table state))
    (notOnStack : key ∉ stack) (enough : (system.keys \ insert key stack).card < fuel)
    (path : ∀ other ∈ stack, Relation.TransGen system.Asks other key) (bottom : Value) :
    (function.pass fuel key bottom).Yields state fun value after =>
        Context after ∧ system.Pass base former root stack (function.table after) ∧
          Proceeds (function.table state) (function.table after) ∧ system.Bound key value ∧
          (function.table after).pending[key]? = some ⟨value, .evaluated⟩ := by
  obtain ⟨initial, running⟩ := (pass.running_iff key).mp (Finset.mem_insert_self key stack)
  obtain ⟨_, inKeys, pathToKey, _⟩ := pass.pending running
  have asked : ∀ other, (system.Asks key other ∧ other ∈ system.keys) → ∀ state,
      (Context state ∧ system.Pass base former root (insert key stack) (function.table state)) →
      (function.solve fuel other).Yields state fun value after =>
        (Context after ∧ system.Pass base former root (insert key stack) (function.table after)) ∧
          Proceeds (function.table state) (function.table after) ∧
          ((system.Seen base former (function.table after) key other value ∧
            EquationSystem.Told base former (insert key stack) (function.table after) other value) ∧
            system.Bound other value) := by
    rintro other ⟨asks, inKeys⟩ state ⟨context, pass⟩
    have reaches : ∀ asking ∈ insert key stack, Relation.TransGen system.Asks asking other := by
      intro asking member
      rcases Finset.mem_insert.mp member with rfl | member
      · exact .single asks
      · exact (path asking member).tail asks
    refine (nested context pass (Finset.insert_nonempty key stack) enough inKeys
      (fun fresh => pathToKey.tail ⟨asks, fresh⟩) reaches).mono ?_
    rintro value after ⟨context, pass, proceeds, bound, told, seen⟩
    refine ⟨⟨context, pass⟩, proceeds, ⟨seen key fun onStack => ?_, told⟩, bound⟩
    rcases Finset.mem_insert.mp onStack with rfl | onStack
    · exact .single asks
    · exact .head asks (path other onStack)
  have run := Reading.yields_run
    (fun state => Context state ∧ system.Pass base former root (insert key stack) (function.table state))
    (fun state after => Proceeds (function.table state) (function.table after))
    (fun _ => .refl _) .trans
    (fun proceeds _ _ facts =>
      ⟨⟨facts.1.1.proceeds proceeds, facts.1.2.proceeds proceeds⟩, facts.2⟩)
    (system.asks key inKeys) asked ⟨context, pass⟩
  obtain ⟨value, between, isRun, ⟨context, pass⟩, proceeds, answers⟩ := run
  unfold Recursion.pass
  refine (yields_bind _ _ _).mpr ⟨value, between, ?_, ?_⟩
  · rw [follows.step_eq _ _ inKeys (by assumption), isRun]
  · simp only [follows.finish_eq, yields_bind, yields_pure, yields_modify, follows.table_modify]
    have bound : system.Bound key value :=
      system.equation_bound key inKeys value (answers.mono fun _ _ facts => facts.2)
    obtain ⟨pass, recorded⟩ :=
      pass.record notOnStack (answers.mono fun _ _ facts => facts.1) bound
    exact ⟨follows.context_modify _ (fun _ => by rfl) context, pass, proceeds.trans recorded, bound,
      Table.pending_record_self⟩

include settledBound

/-- Every nested call answers if its fuel exceeds the number of keys that are not on the stack. -/
theorem nested (fuel : Nat) : Nested function Context system base former root fuel := by
  induction fuel with
  | zero =>
      intro key stack state _ _ _ enough
      exact absurd enough (Nat.not_lt_zero _)
  | succ fuel inductionHypothesis =>
      intro key stack state context pass nonempty enough inKeys pathToKey path
      rcases (function.table state).lookup_cases key with
        ⟨value, settled, isKnown⟩ | ⟨_, value, running, isReentrant⟩ |
        ⟨_, value, evaluated, isKnown⟩ | ⟨fresh, unevaluated, isUnknown⟩
      · refine (yields_solve_known isKnown).mpr ?_
        rw [pass.settled_eq] at settled
        exact ⟨context, pass, .refl _, settledBound settled, .inl settled, fun _ _ => .inl settled⟩
      · refine (yields_solve_reentrant isReentrant).mpr ?_
        have onStack : key ∈ stack := (pass.running_iff key).mpr ⟨value, running⟩
        have fresh := (pass.pending running).1
        obtain ⟨pass', proceeds⟩ :=
          pass.markReentered ⟨key, pathToKey fresh, path key onStack⟩
        rw [follows.table_modify]
        have cyclic : system.Cyclic key := path key onStack
        exact ⟨follows.context_modify _ (fun _ => by rfl) context, pass', proceeds,
          (pass.pending running).2.2.2 fun _ => cyclic,
          .inr (.inr ⟨onStack, (pass.former_of_running running).symm⟩),
          fun asking cyclic => pass'.seen_of_running cyclic rfl running⟩
      · refine (yields_solve_known isKnown).mpr ?_
        exact ⟨context, pass, .refl _, (pass.pending evaluated).2.2.2 nofun, .inr (.inl evaluated),
          fun _ _ => .inr (.inl evaluated)⟩
      · have fresh : base.settled[key]? = none := by rwa [← pass.settled_eq]
        have notOnStack : key ∉ stack := by
          intro onStack
          obtain ⟨value, running⟩ := (pass.running_iff key).mp onStack
          exact absurd (unevaluated value _ running) (by simp)
        have inUse : (function.table state).inUse = true := by
          obtain ⟨other, onStack⟩ := nonempty
          obtain ⟨value, running⟩ := (pass.running_iff other).mp onStack
          by_contra idle
          simp [Table.not_inUse_iff.mp (Bool.eq_false_iff.mpr idle) other] at running
        have enough' : (system.keys \ insert key stack).card < fuel := by
          have member : key ∈ system.keys \ stack := Finset.mem_sdiff.mpr ⟨inKeys, notOnStack⟩
          have fewer := Finset.card_erase_lt_of_mem member
          rw [← Finset.sdiff_insert] at fewer
          omega
        obtain ⟨pass', started⟩ := pass.start inKeys fresh (pathToKey fresh) unevaluated
        rw [yields_solve_nested isUnknown inUse, follows.bottom_eq, yields_pure]
        refine (follows.yields_pass inductionHypothesis (follows.context_modify _ (fun _ => by rfl) context)
          (by rwa [follows.table_modify]) notOnStack enough' path _).mono ?_
        rintro value after ⟨context, pass, proceeds, bound, evaluated⟩
        rw [follows.table_modify] at proceeds
        exact ⟨context, pass, started.trans proceeds, bound, .inr (.inl evaluated),
          fun _ _ => .inr (.inl evaluated)⟩

/-- All passes of an outermost call. -/
theorem yields_passes (rootInKeys : root ∈ system.keys) (enough : system.keys.card ≤ fuel)
    (bottom : Value) (repetitions : Nat) (context : Context state)
    (pass : system.Pass base former root {root} (function.table state)) {passes : Nat}
    (following : system.Former base root passes former)
    (allowed : passes + repetitions = base.strategy.repetitions) :
    (function.passes root (function.pass fuel root bottom) repetitions).Yields state
      fun value after => Context after ∧
        ∃ Fresh, system.Outcome base root value (function.table after) Fresh := by
  have fewer : (system.keys \ insert root ∅).card < fuel := by
    rw [insert_empty_eq, Finset.sdiff_singleton_eq_erase]
    exact (Finset.card_erase_lt_of_mem rootInKeys).trans_le enough
  induction repetitions generalizing state former passes with
  | zero =>
      rw [Recursion.passes, yields_bind]
      refine (follows.yields_pass (follows.nested settledBound fuel) context
        (by rwa [insert_empty_eq]) (Finset.notMem_empty root) fewer (by simp) bottom).mono ?_
      rintro value after ⟨context, pass, _, _, evaluated⟩
      cases unstable : (function.table after).unstable with
      | true =>
          simp only [yields_bind, yields_get, unstable, if_true, Recursion.giveUp, yields_modify,
            yields_pure]
          refine ⟨follows.context_giveUp _ context,
            (function.table after).Evaluated, ?_⟩
          rw [follows.table_modify, follows.table_noteExhausted]
          exact pass.outcome evaluated rfl rfl rfl (fun _ => rfl)
            (fun _ => .inr ⟨unstable, allowed⟩) (.inl rfl) following (.inl allowed)
      | false =>
          simp only [yields_bind, yields_get, unstable, Bool.false_eq_true, if_false,
            yields_modify, yields_pure]
          refine ⟨follows.context_modify _ (fun _ => by rfl) context, (function.table after).Evaluated, ?_⟩
          rw [follows.table_modify]
          exact pass.outcome evaluated rfl rfl rfl (fun truncated => truncated) .inl
            (.inr unstable) following (.inl allowed)
  | succ repetitions inductionHypothesis =>
      rw [Recursion.passes, yields_bind]
      refine (follows.yields_pass (follows.nested settledBound fuel) context
        (by rwa [insert_empty_eq]) (Finset.notMem_empty root) fewer (by simp) bottom).mono ?_
      rintro value after ⟨context, pass, _, _, evaluated⟩
      cases unstable : (function.table after).unstable with
      | true =>
          simp only [yields_bind, yields_get, unstable, if_true, yields_modify]
          refine inductionHypothesis
            (follows.context_noteRepeated (follows.context_modify _ (fun _ => by rfl) context)) ?_
            (following.next pass ⟨value, evaluated⟩ unstable) (by omega)
          rw [follows.table_noteRepeated, follows.table_modify]
          exact pass.restart rfl evaluated
      | false =>
          simp only [yields_bind, yields_get, unstable, Bool.false_eq_true, if_false,
            yields_modify, yields_pure]
          refine ⟨follows.context_modify _ (fun _ => by rfl) context, (function.table after).Evaluated, ?_⟩
          rw [follows.table_modify]
          refine pass.outcome evaluated rfl rfl rfl (fun truncated => truncated) .inl
            (.inr unstable) following (.inr fun reentered => ?_)
          have iterates : (function.table after).strategy.iterates = true := by
            rw [pass.strategy_eq]
            exact Strategy.iterates_of_repetitions_ne_zero (by omega)
          simpa [Table.unstable, iterates, reentered] using unstable

/-- An outermost call answers, and its value and those it needed are settled. -/
theorem yields_solve (idle : ∀ key : Key, base.pending[key]? = none) (rootInKeys : root ∈ system.keys)
    (enough : system.keys.card < fuel) (context : Context state)
    (isTable : function.table state = base) :
    (function.solve fuel root).Yields state fun value after => Context after ∧
      ((function.table after = base ∧ base.settled[root]? = some value) ∨
        ∃ Fresh, system.Outcome base root value (function.table after) Fresh) := by
  obtain ⟨fuel, rfl⟩ : ∃ rest, fuel = rest + 1 := ⟨fuel - 1, by omega⟩
  rcases (function.table state).lookup_cases root with
    ⟨value, settled, isKnown⟩ | ⟨_, value, running, _⟩ | ⟨_, value, evaluated, _⟩ |
    ⟨fresh, unevaluated, isUnknown⟩
  · refine (yields_solve_known isKnown).mpr ⟨context, .inl ⟨isTable, ?_⟩⟩
    rwa [isTable] at settled
  · simp [isTable, idle] at running
  · simp [isTable, idle] at evaluated
  · have notInUse : (function.table state).inUse = false :=
      Table.not_inUse_iff.mpr (by rwa [isTable])
    rw [isTable] at fresh unevaluated
    rw [yields_solve_outermost isUnknown notInUse, follows.bottom_eq, yields_pure]
    refine (follows.yields_passes settledBound rootInKeys (by omega) _ _
      (follows.context_modify _ (fun _ => by rfl) context) ?_ .bottom ?_).mono ?_
    · rw [follows.table_modify, isTable]
      exact ((Pass.first idle).start rootInKeys fresh .refl unevaluated).1
    · rw [follows.table_modify, isTable, Nat.zero_add]
      rfl
    · rintro value after ⟨context, outcome⟩
      exact ⟨context, .inr outcome⟩

/-- Outermost calls of equations that always ask for the same keys. -/
theorem yields_solve_static (isStatic : system.IsStatic)
    (idle : ∀ key : Key, base.pending[key]? = none) (rootInKeys : root ∈ system.keys)
    (enough : system.keys.card < fuel) (context : Context state)
    (isTable : function.table state = base) :
    (function.solve fuel root).Yields state fun value after =>
      Context after ∧ system.Settles base root value (function.table after) := by
  refine (follows.yields_solve settledBound idle rootInKeys enough context isTable).mono ?_
  rintro value after ⟨context, ⟨same, settled⟩ | ⟨Fresh, outcome⟩⟩
  · refine ⟨context, ?_⟩
    rw [same]
    exact .refl idle settled
  · exact ⟨context, outcome.settles isStatic⟩

end Recursion.Follows

end Residual.Memo
