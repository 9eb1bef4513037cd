import Residual.Proofs.Grammar.Transformation.Passes
import Residual.Proofs.Grammar.Transformation.Scheme
import Residual.Proofs.Grammar.Unfolding

/-!
# Transformations make trees

A transformation of an expression with a tree makes expressions with trees.  While it runs, links
stand for the results of the keys that are being evaluated.  They are placeholders: no key asks for
the result of a heavier one, so that none of them becomes an operand of what is made.
-/

set_option autoImplicit false

namespace Residual.Grammar

open Memo

variable {Key : Type} [BEq Key] [Hashable Key] {table : Tables → Table Key ExprId}
  {modifyTable : (Table Key ExprId → Table Key ExprId) → Tables → Tables}
  {step : (Key → Eval Grammar ExprId) → Key → Eval Grammar ExprId} {lang : Key → ExprId}
  {placeholders : Set ExprId} {state between after : Grammar} {key : Key} {id link value : ExprId}
  {e : Expr ExprId} {tree : Tree} {fuel : Nat}

/-- Only the keys that are being evaluated have results without a tree. -/
structure Evaluating (table : Tables → Table Key ExprId) (placeholders : Set ExprId)
    (state : Grammar) : Prop where
  unfolded : state.Unfolded placeholders
  singlePass : (table state.tables).strategy = .singlePass
  settled : ∀ {key : Key} {value : ExprId}, (table state.tables).settled[key]? = some value →
    state.arena.Unfoldable placeholders value
  pending : ∀ {key : Key} {value : ExprId} {phase : Phase},
    (table state.tables).pending[key]? = some ⟨value, phase⟩ → phase ≠ .running →
    state.arena.Unfoldable placeholders value

/-- What is done in the course of an evaluation.  All keys that it began with are finished. -/
structure Progresses (table : Tables → Table Key ExprId) (placeholders : Set ExprId)
    (state after : Grammar) : Prop where
  evaluating : Evaluating table placeholders after
  filling : Arena.Fills placeholders placeholders state.arena after.arena
  running : ∀ {key : Key} {link : ExprId},
    (table after.tables).pending[key]? = some ⟨link, .running⟩ →
    (table state.tables).pending[key]? = some ⟨link, .running⟩

/-- The computation makes an expression with a tree, if it answers. -/
def Builds (table : Tables → Table Key ExprId) (placeholders : Set ExprId) (state : Grammar)
    (computation : Eval Grammar ExprId) : Prop :=
  Ensures computation state fun value after =>
    Progresses table placeholders state after ∧ after.arena.Unfoldable placeholders value

/-- From this state on, keys with lighter trees get trees for their results. -/
def BuildsBelow (table : Tables → Table Key ExprId) (lang : Key → ExprId)
    (placeholders : Set ExprId) (tree : Tree) (state : Grammar)
    (recur : Key → Eval Grammar ExprId) : Prop :=
  ∀ {between : Grammar} {other : Key} {lighter : Tree},
    Progresses table placeholders state between →
    between.arena.Unfolds placeholders (lang other) lighter → lighter.weight < tree.weight →
    Builds table placeholders between (recur other)

/-- What has to be shown about a transformation: one step makes a tree if it gets trees for the
results of keys with lighter trees. -/
structure Lightens (table : Tables → Table Key ExprId)
    (modifyTable : (Table Key ExprId → Table Key ExprId) → Tables → Tables)
    (step : (Key → Eval Grammar ExprId) → Key → Eval Grammar ExprId) (lang : Key → ExprId) :
    Prop where
  isField : Tables.IsField table modifyTable
  unfolded : ∀ {placeholders state} f, Unfolded placeholders state →
    Unfolded placeholders { state with tables := modifyTable f state.tables }
  step_builds : ∀ {placeholders recur key state tree}, Evaluating table placeholders state →
    state.arena.Unfolds placeholders (lang key) tree →
    BuildsBelow table lang placeholders tree state recur →
    Builds table placeholders state (step recur key)

theorem Evaluating.progresses_refl (evaluating : Evaluating table placeholders state) :
    Progresses table placeholders state state :=
  ⟨evaluating, .refl _ _, fun found => found⟩

/-- The arena grows and analyses change their tables. -/
theorem Evaluating.progresses (evaluating : Evaluating table placeholders state)
    (unfolded : after.Unfolded placeholders)
    (filling : Arena.Fills placeholders placeholders state.arena after.arena)
    (same : table after.tables = table state.tables) :
    Progresses table placeholders state after where
  evaluating :=
    { unfolded := unfolded
      singlePass := by rw [same]; exact evaluating.singlePass
      settled := fun found => (evaluating.settled (same ▸ found)).fills filling
      pending := fun found finished => (evaluating.pending (same ▸ found) finished).fills filling }
  filling := filling
  running := fun found => same ▸ found

theorem Progresses.trans (first : Progresses table placeholders state between)
    (second : Progresses table placeholders between after) :
    Progresses table placeholders state after :=
  ⟨second.evaluating, first.filling.trans second.filling,
    fun found => first.running (second.running found)⟩

/-- What is made in the end, seen from an earlier state. -/
theorem Builds.of_progresses {computation : Eval Grammar ExprId}
    (builds : Builds table placeholders between computation)
    (progresses : Progresses table placeholders state between) :
    Ensures computation between fun value after =>
      Progresses table placeholders state after ∧ after.arena.Unfoldable placeholders value := by
  refine Ensures.mono builds ?_
  rintro value after ⟨progresses', unfoldable⟩
  exact ⟨progresses.trans progresses', unfoldable⟩

/-- A computation goes on with an answer and what was told about it. -/
theorem Builds.bind {Answer : Type} {computation : Eval Grammar Answer}
    {next : Answer → Eval Grammar ExprId} {told : Answer → Grammar → Prop}
    (first : Ensures computation state fun answer between =>
      Progresses table placeholders state between ∧ told answer between)
    (continues : ∀ {answer : Answer} {between : Grammar},
      Progresses table placeholders state between → told answer between →
      Builds table placeholders between (next answer)) :
    Builds table placeholders state (computation >>= next) := by
  refine (ensures_bind _ _ _).mpr (first.mono ?_)
  rintro answer between ⟨progresses, isTold⟩
  exact (continues progresses isTold).of_progresses progresses

@[simp]
theorem builds_get (next : Grammar → Eval Grammar ExprId) :
    Builds table placeholders state (get >>= next) ↔
      Builds table placeholders state (next state) := by
  unfold Builds
  rw [ensures_bind, ensures_get]

theorem Evaluating.builds_pure (evaluating : Evaluating table placeholders state)
    (unfoldable : state.arena.Unfoldable placeholders value) :
    Builds table placeholders state (pure value) :=
  (ensures_pure _ _).mpr ⟨evaluating.progresses_refl, unfoldable⟩

theorem Evaluating.builds_nil (evaluating : Evaluating table placeholders state) :
    Builds table placeholders state (pure .nil) :=
  evaluating.builds_pure (.nil evaluating.unfolded.wellFormed)

theorem Evaluating.builds_empty (evaluating : Evaluating table placeholders state) :
    Builds table placeholders state (pure .empty) :=
  evaluating.builds_pure (.empty evaluating.unfolded.wellFormed)

theorem Evaluating.ensures_push (evaluating : Evaluating table placeholders state)
    (operands : ∀ o ∈ e.operands, state.arena.Unfoldable placeholders o) :
    Ensures (liftM (push e) : Eval Grammar ExprId) state fun id after =>
      Progresses table placeholders state after ∧ after.arena.slot? id = some (.expr e) := by
  rw [Eval.ensures_lift]
  exact ⟨evaluating.progresses (evaluating.unfolded.push operands)
    (.of_extends (Arena.extends_push _ _)) rfl, Arena.slot?_push evaluating.unfolded.wellFormed e⟩

theorem Evaluating.builds_push (evaluating : Evaluating table placeholders state)
    (operands : ∀ o ∈ e.operands, state.arena.Unfoldable placeholders o) :
    Builds table placeholders state (liftM (push e)) :=
  (evaluating.ensures_push operands).mono fun _ _ ⟨progresses, found⟩ =>
    ⟨progresses, .node found fun o member => (operands o member).fills progresses.filling⟩

/-- An operator above two expressions with trees. -/
theorem Evaluating.builds_above {first second : ExprId}
    (evaluating : Evaluating table placeholders state) (operands : e.operands = [first, second])
    (isFirst : state.arena.Unfoldable placeholders first)
    (isSecond : state.arena.Unfoldable placeholders second) :
    Builds table placeholders state (liftM (push e)) := by
  refine evaluating.builds_push fun o member => ?_
  rw [operands] at member
  rcases List.mem_pair.mp member with rfl | rfl
  · exact isFirst
  · exact isSecond

/-- An analysis that is asked in between changes its own table only. -/
theorem Evaluating.ensures_aside {Key' Value Answer : Type} [BEq Key'] [Hashable Key']
    {modify : (Table Key' Value → Table Key' Value) → Tables → Tables}
    {computation : Eval Grammar Answer} {right : Answer → Prop}
    (evaluating : Evaluating table placeholders state)
    (yields : computation.Yields state fun answer after =>
      right answer ∧ after.Unfolded placeholders ∧ Aside modify state after)
    (same : ∀ f tables, table (modify f tables) = table tables) :
    Ensures computation state fun _ after =>
      Progresses table placeholders state after ∧ after.arena = state.arena := by
  refine yields.ensures.mono ?_
  rintro answer ⟨_, _, _, _, _⟩ ⟨_, unfolded, rfl, rfl, rfl, f, rfl⟩
  exact ⟨evaluating.progresses unfolded (.refl _ _) (same f state.tables), rfl⟩

namespace BuildsBelow

variable {recur : Key → Eval Grammar ExprId} {o : ExprId} {lighter : Tree}
  (keyOf : ExprId → Key) (isLang : ∀ id, lang (keyOf id) = id)
  (below : BuildsBelow table lang placeholders tree state recur)
  (progresses : Progresses table placeholders state between)

include isLang below progresses

theorem ask (unfolds : between.arena.Unfolds placeholders o lighter)
    (isLighter : lighter.weight < tree.weight) :
    Builds table placeholders between (askOperand (fun id => recur (keyOf id)) o) := by
  unfold askOperand
  rw [builds_get]
  refine below progresses ?_ isLighter
  rw [isLang]
  exact unfolds.resolve progresses.evaluating.unfolded.wellFormed

/-- Operands are lighter. -/
theorem operand (wellFormed : state.arena.WellFormed)
    (unfolds : state.arena.Unfolds placeholders id tree)
    (member : o ∈ (state.arena.get id).operands) :
    Builds table placeholders between (askOperand (fun id => recur (keyOf id)) o) := by
  obtain ⟨trees, operands, root⟩ := unfolds.root_eq wellFormed
  refine below.ask keyOf isLang progresses ((operands o member).fills progresses.filling)
    (Tree.weight_operand ?_)
  rw [root, Expr.operands_map]
  exact List.mem_map_of_mem member

end BuildsBelow

section Evaluation

/-- The keys that are being evaluated have heavier trees. -/
def Heavier (table : Tables → Table Key ExprId) (lang : Key → ExprId) (placeholders : Set ExprId)
    (tree : Tree) (state : Grammar) : Prop :=
  ∀ {key : Key} {link : ExprId}, (table state.tables).pending[key]? = some ⟨link, .running⟩ →
    ∃ tree', state.arena.Unfolds placeholders (lang key) tree' ∧ tree.weight < tree'.weight

/-- Nested calls with this fuel make trees for keys that are lighter than all that are being
evaluated. -/
def Solves (table : Tables → Table Key ExprId)
    (modifyTable : (Table Key ExprId → Table Key ExprId) → Tables → Tables)
    (step : (Key → Eval Grammar ExprId) → Key → Eval Grammar ExprId) (lang : Key → ExprId)
    (fuel : Nat) : Prop :=
  ∀ {placeholders : Set ExprId} {state : Grammar} {key : Key} {tree : Tree},
    Evaluating table placeholders state → state.arena.Unfolds placeholders (lang key) tree →
    Heavier table lang placeholders tree state →
    Builds table placeholders state ((transformation table modifyTable step).solve fuel key)

/-- The state in which the evaluation of a key begins, with a new link for its result. -/
structure Enters (table : Tables → Table Key ExprId) (placeholders : Set ExprId) (key : Key)
    (state entered : Grammar) : Prop where
  unfolded : Unfolded (insert state.arena.reserve.1 placeholders) entered
  arena : entered.arena = state.arena.reserve.2
  strategy : (table entered.tables).strategy = (table state.tables).strategy
  settled : (table entered.tables).settled = (table state.tables).settled
  others : ∀ {other : Key}, other ≠ key →
    (table entered.tables).pending[other]? = (table state.tables).pending[other]?
  onTop : ∃ link, (table entered.tables).pending[key]? = some ⟨link, .running⟩

namespace Enters

variable {entered : Grammar} (enters : Enters table placeholders key state entered)

include enters

theorem filling : Arena.Fills placeholders (insert state.arena.reserve.1 placeholders) state.arena
    entered.arena := by
  rw [enters.arena]
  exact .reserve state.arena placeholders

theorem evaluating (evaluating : Evaluating table placeholders state) :
    Evaluating table (insert state.arena.reserve.1 placeholders) entered where
  unfolded := enters.unfolded
  singlePass := enters.strategy.trans evaluating.singlePass
  settled found := (evaluating.settled (enters.settled ▸ found)).fills enters.filling
  pending {other value phase} found finished := by
    by_cases same : other = key
    · subst same
      obtain ⟨link, onTop⟩ := enters.onTop
      cases onTop.symm.trans found
      exact absurd rfl finished
    · rw [enters.others same] at found
      exact (evaluating.pending found finished).fills enters.filling

/-- No key that is asked for is being evaluated, if it is lighter than the one that asks. -/
theorem heavier {placeholders' : Set ExprId} {tree' : Tree}
    (unfolds : state.arena.Unfolds placeholders (lang key) tree)
    (heavier : Heavier table lang placeholders tree state)
    (filling : Arena.Fills placeholders placeholders' state.arena between.arena)
    (running : ∀ {key : Key} {link : ExprId},
      (table between.tables).pending[key]? = some ⟨link, .running⟩ →
      (table entered.tables).pending[key]? = some ⟨link, .running⟩)
    (lighter : tree'.weight < tree.weight) : Heavier table lang placeholders' tree' between := by
  intro other link found
  by_cases same : other = key
  · subst same
    exact ⟨tree, unfolds.fills filling, lighter⟩
  · have found := running found
    rw [enters.others same] at found
    obtain ⟨tree'', unfolds'', lighter'⟩ := heavier found
    exact ⟨tree'', unfolds''.fills filling, lighter.trans lighter'⟩

end Enters

variable [LawfulBEq Key]

/-- The evaluation of a key ends: its link is bound to the result, which is recorded. -/
theorem Progresses.finish {entered : Grammar}
    (enters : Enters table placeholders key state entered)
    (lightens : Lightens table modifyTable step lang) (unfolded : state.Unfolded placeholders)
    (progresses :
      Progresses table (insert state.arena.reserve.1 placeholders) entered between)
    (unfoldable : between.arena.Unfoldable (insert state.arena.reserve.1 placeholders) value) :
    Progresses table placeholders state
      { between with
        arena := (between.arena.bind state.arena.reserve.1 value).2
        tables := modifyTable (Table.record key value) between.tables } := by
  have isNew : state.arena.reserve.1 ∉ placeholders := fun isPlaceholder =>
    absurd (Arena.lt_size_of_slot? (unfolded.unbound isPlaceholder)) (Nat.lt_irrefl _)
  have unfolded' := progresses.evaluating.unfolded
  have filling : Arena.Fills (insert state.arena.reserve.1 placeholders) placeholders between.arena
      (between.arena.bind state.arena.reserve.1 value).2 :=
    .bind (unfolded'.unbound (Set.mem_insert _ _)) value
  have isTable : table (modifyTable (Table.record key value) between.tables) =
      (table between.tables).record key value := lightens.isField.table_modify _ _
  refine
    { evaluating :=
        { unfolded := lightens.unfolded _ (unfolded'.bind isNew unfoldable)
          singlePass := ?_
          settled := ?_
          pending := ?_ }
      filling := (enters.filling.trans progresses.filling).trans filling
      running := ?_ }
  · rw [isTable]
    exact progresses.evaluating.singlePass
  · intro other answer found
    rw [isTable] at found
    exact (progresses.evaluating.settled found).fills filling
  · intro other answer phase found finished
    rw [isTable] at found
    by_cases same : other = key
    · subst same
      rw [Table.pending_record_self] at found
      cases found
      exact unfoldable.fills filling
    · rw [Table.pending_record_of_ne same] at found
      exact (progresses.evaluating.pending found finished).fills filling
  · intro other link found
    rw [isTable] at found
    by_cases same : other = key
    · subst same
      rw [Table.pending_record_self] at found
      cases found
    · rw [Table.pending_record_of_ne same] at found
      exact enters.others same ▸ progresses.running found

variable (lightens : Lightens table modifyTable step lang)

include lightens

/-- A nested evaluation enters its key at once, and an outermost one prepares the table before. -/
theorem enters (unfolded : state.Unfolded placeholders)
    (prepare : Table Key ExprId → Table Key ExprId)
    (prepares : ∀ table, (prepare table).strategy = table.strategy ∧
      (prepare table).settled = table.settled ∧ (prepare table).pending = table.pending) :
    Enters table placeholders key state
      { state with
        arena := state.arena.reserve.2
        tables := modifyTable (fun table => (prepare table).start key state.arena.reserve.1)
          state.tables } := by
  have isTable := lightens.isField.table_modify
    (fun table => (prepare table).start key state.arena.reserve.1) state.tables
  obtain ⟨strategy, settled, pending⟩ := prepares (table state.tables)
  refine ⟨lightens.unfolded _ unfolded.reserve_placeholder, rfl, ?_, ?_, ?_, ?_⟩
  · rw [isTable]
    exact strategy
  · rw [isTable]
    exact settled
  · intro other distinct
    rw [isTable, Table.pending_start_of_ne distinct, pending]
  · rw [isTable, Table.pending_start_self]
    exact ⟨_, rfl⟩

/-- The evaluation of a key makes a tree.  The keys that it asks for are lighter, so that none of
them is being evaluated already. -/
theorem ensures_pass {entered : Grammar} (enters : Enters table placeholders key state entered)
    (evaluating : Evaluating table placeholders state)
    (unfolds : state.arena.Unfolds placeholders (lang key) tree)
    (heavier : Heavier table lang placeholders tree state)
    (solves : Solves table modifyTable step lang fuel) :
    Ensures ((transformation table modifyTable step).pass fuel key state.arena.reserve.1) entered
      fun value after =>
        Progresses table placeholders state after ∧ after.arena.Unfoldable placeholders value := by
  have below : BuildsBelow table lang (insert state.arena.reserve.1 placeholders) tree entered
      ((transformation table modifyTable step).solve fuel) := by
    intro between other tree' progresses unfolds' lighter
    exact solves progresses.evaluating unfolds' (enters.heavier unfolds heavier
      (enters.filling.trans progresses.filling) progresses.running lighter)
  have stepped := lightens.step_builds (enters.evaluating evaluating)
    (unfolds.fills enters.filling) below
  refine ensures_transformation_pass (stepped.mono ?_)
  rintro value between ⟨progresses, unfoldable⟩
  refine ⟨.finish enters lightens evaluating.unfolded progresses unfoldable, ?_⟩
  exact unfoldable.fills (.bind (progresses.evaluating.unfolded.unbound (Set.mem_insert _ _)) _)

omit lightens [LawfulBEq Key] in
/-- Nothing is under evaluation any more when the outermost call has ended. -/
theorem Progresses.evaluated (progresses : Progresses table placeholders state after)
    (idle : ∀ key : Key, (table state.tables).pending[key]? = none) {value : ExprId} {phase : Phase}
    (found : (table after.tables).pending[key]? = some ⟨value, phase⟩) :
    after.arena.Unfoldable placeholders value := by
  refine progresses.evaluating.pending found ?_
  rintro rfl
  cases (idle key).symm.trans (progresses.running found)

/-- The results of an outermost call are recorded for good. -/
theorem Progresses.commit (progresses : Progresses table placeholders state after)
    (idle : ∀ key : Key, (table state.tables).pending[key]? = none) :
    Progresses table placeholders state
      { after with tables := modifyTable Table.commit after.tables } := by
  have isTable : table (modifyTable Table.commit after.tables) = (table after.tables).commit :=
    lightens.isField.table_modify _ _
  refine
    { evaluating :=
        { unfolded := lightens.unfolded _ progresses.evaluating.unfolded
          singlePass := ?_
          settled := ?_
          pending := ?_ }
      filling := progresses.filling
      running := ?_ }
  · rw [isTable]
    exact progresses.evaluating.singlePass
  · intro other answer found
    rw [isTable, Table.settled_commit] at found
    cases entry : (table after.tables).pending[other]? with
    | none =>
        rw [entry] at found
        exact progresses.evaluating.settled found
    | some provisional =>
        rw [entry] at found
        cases found
        exact progresses.evaluated idle entry
  · intro other answer phase found _
    rw [isTable, Table.pending_commit] at found
    cases found
  · intro other link found
    rw [isTable, Table.pending_commit] at found
    cases found

/-- An outermost call makes a tree in its only pass. -/
theorem builds_solve_outermost (solves : Solves table modifyTable step lang fuel)
    (isUnknown : (table state.tables).lookup key = .unknown)
    (notInUse : (table state.tables).inUse = false)
    (evaluating : Evaluating table placeholders state)
    (unfolds : state.arena.Unfolds placeholders (lang key) tree)
    (heavier : Heavier table lang placeholders tree state) :
    Builds table placeholders state
      ((transformation table modifyTable step).solve (fuel + 1) key) := by
  have begun : Enters table placeholders key state
      ((state.changeTable modifyTable Table.startPasses).enter modifyTable key) := by
    have entered : Enters table placeholders key state _ :=
      enters lightens evaluating.unfolded Table.startPasses fun _ => ⟨rfl, rfl, rfl⟩
    unfold enter changeTable
    rwa [lightens.isField.modify_modify]
  refine ensures_transformation_outermost lightens.isField isUnknown notInUse
    evaluating.singlePass ?_
  refine (ensures_pass lightens begun evaluating unfolds heavier solves).mono ?_
  rintro value after ⟨progresses, unfoldable⟩
  exact ⟨progresses.evaluating.singlePass,
    progresses.commit lightens (Table.not_inUse_iff.mp notInUse), unfoldable⟩

/-- A key that is lighter than those that are being evaluated gets a tree for its result. -/
theorem solves (fuel : Nat) : Solves table modifyTable step lang fuel := by
  induction fuel with
  | zero => exact fun _ _ _ => ensures_throw _ _
  | succ fuel inductionHypothesis =>
      intro placeholders state key tree evaluating unfolds heavier
      rcases (table state.tables).lookup_cases key with
        ⟨value, settled, isKnown⟩ | ⟨_, value, running, _⟩ | ⟨_, value, evaluated, isKnown⟩ |
        ⟨_, _, isUnknown⟩
      · exact (Recursion.ensures_solve_known isKnown).mpr
          ⟨evaluating.progresses_refl, evaluating.settled settled⟩
      · obtain ⟨tree', unfolds', lighter⟩ := heavier running
        cases unfolds.unique unfolds'
        exact absurd lighter (Nat.lt_irrefl _)
      · exact (Recursion.ensures_solve_known isKnown).mpr
          ⟨evaluating.progresses_refl, evaluating.pending evaluated nofun⟩
      · cases inUse : (table state.tables).inUse with
        | false =>
            exact builds_solve_outermost lightens inductionHypothesis isUnknown inUse evaluating
              unfolds heavier
        | true =>
            have begun : Enters table placeholders key state (state.enter modifyTable key) :=
              enters lightens evaluating.unfolded id fun _ => ⟨rfl, rfl, rfl⟩
            exact ensures_transformation_nested isUnknown inUse
              (ensures_pass lightens begun evaluating unfolds heavier inductionHypothesis)

/-- An outermost call keeps everything with a tree. -/
theorem ensures_unfolded (unfolded : state.Unfolded ∅)
    (idle : ∀ key : Key, (table state.tables).pending[key]? = none)
    (singlePass : (table state.tables).strategy = .singlePass)
    (settled_lt : ∀ {key : Key} {value : ExprId},
      (table state.tables).settled[key]? = some value → value.number < state.arena.size)
    (inside : (lang key).number < state.arena.size) (fuel : Nat) :
    Ensures ((transformation table modifyTable step).solve fuel key) state
      fun _ after => after.Unfolded ∅ := by
  obtain ⟨tree, unfolds⟩ := unfolded.unfoldable inside (Set.notMem_empty _)
  have evaluating : Evaluating table ∅ state :=
    { unfolded := unfolded
      singlePass := singlePass
      settled := fun found => unfolded.unfoldable (settled_lt found) (Set.notMem_empty _)
      pending := fun found => by simp [idle] at found }
  refine Ensures.mono (solves lightens fuel evaluating unfolds ?_) ?_
  · intro other link found
    simp [idle] at found
  · rintro value after ⟨progresses, _⟩
    exact progresses.evaluating.unfolded

end Evaluation

end Residual.Grammar
