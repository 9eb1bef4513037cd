import Residual.Proofs.Memo.Evaluation

/-!
# The discipline of evaluation

Nothing is known of the equations here but that finitely many keys ask for each other.  They may ask
for different keys every time, change a context of their own, and even try to clear the table; no
order of values is assumed, so that passes may go on changing until they run out.

While a call is `Underway`, the keys with pending values are those that some pass has evaluated, and
those that are running are the stack.  A nested evaluation is of a key that is not on the stack, which
bounds the nesting; a key that was evaluated in this pass is answered from the table, which bounds the
pass; and as long as there is a stack the table is in use, so that no equation can clear it.
-/

set_option autoImplicit false

namespace Residual.Memo

/-! ## Computations that halt for one reason -/

namespace Eval

variable {State Answer Result : Type} {before : State} {post : Answer → State → Prop}
  {halted : State → Prop}

/-- The computation has fuel enough: it answers as `post` says, or it halts because a table in use
was to be cleared, in a state that satisfies `halted`. -/
def Ends (computation : Eval State Answer) (before : State) (post : Answer → State → Prop)
    (halted : State → Prop) : Prop :=
  computation.Yields before post ∨
    ∃ after, computation before = .error .tableInUse after ∧ halted after

theorem Ends.mono {computation : Eval State Answer} {weaker : Answer → State → Prop}
    (ends : computation.Ends before post halted)
    (weaken : ∀ answer after, post answer after → weaker answer after) :
    computation.Ends before weaker halted :=
  ends.imp_left fun yields => yields.mono weaken

theorem Ends.bind {computation : Eval State Answer} {next : Answer → Eval State Result}
    {final : Result → State → Prop} (ends : computation.Ends before post halted)
    (proceeds : ∀ answer between, post answer between → (next answer).Ends between final halted) :
    (computation >>= next).Ends before final halted := by
  rcases ends with ⟨answer, between, run, holds⟩ | ⟨after, run, holds⟩
  · have sequel : (computation >>= next) before = next answer between := bind_of_ok run
    apply (proceeds answer between holds).imp
    · intro yields
      exact (yields_bind _ _ _).mpr ⟨answer, between, run, yields⟩
    · intro halts
      rwa [sequel]
  · right
    refine ⟨after, ?_, holds⟩
    simp only [Bind.bind, EStateM.bind, run]

/-- Only what a computation does counts. -/
theorem Ends.of_eq {computation computation' : Eval State Answer} {before' : State}
    (ends : computation'.Ends before' post halted)
    (same : computation before = computation' before') : computation.Ends before post halted := by
  unfold Ends Yields
  rwa [same]

theorem ends_pure {answer : Answer} (holds : post answer before) :
    (pure answer : Eval State Answer).Ends before post halted :=
  .inl ((yields_pure answer post).mpr holds)

theorem Ends.after_modify {change : State → State} {next : PUnit → Eval State Answer}
    (ends : (next ⟨⟩).Ends (change before) post halted) :
    (modify change >>= next).Ends before post halted :=
  ends.of_eq rfl

end Eval

/-! ## Equations with a context -/

/-- The defining equation of a key as a program: it asks for the values of keys, clears the table,
and reads and changes a context. -/
inductive Procedure (Key Value Context : Type) where
  | answer (value : Value)
  | ask (key : Key) (next : Value → Procedure Key Value Context)
  | clear (next : Procedure Key Value Context)
  /-- Changes the context and goes on with what it was before. -/
  | access (change : Context → Context) (next : Context → Procedure Key Value Context)

namespace Procedure

variable {Key Value Context : Type}

/-- Whatever it is told, the procedure asks only for such keys. -/
inductive Asks (Allowed : Key → Prop) : Procedure Key Value Context → Prop where
  | answer (value : Value) : Asks Allowed (.answer value)
  | ask {key : Key} {next : Value → Procedure Key Value Context} (allowed : Allowed key)
      (rest : ∀ value, Asks Allowed (next value)) : Asks Allowed (.ask key next)
  | clear {next : Procedure Key Value Context} (rest : Asks Allowed next) :
      Asks Allowed (.clear next)
  | access (change : Context → Context) {next : Context → Procedure Key Value Context}
      (rest : ∀ context, Asks Allowed (next context)) : Asks Allowed (.access change next)

/-- The procedure may be told something that makes it clear the table. -/
inductive Clears : Procedure Key Value Context → Prop where
  | clear (next : Procedure Key Value Context) : Clears (.clear next)
  | ask (key : Key) {next : Value → Procedure Key Value Context} (value : Value)
      (later : Clears (next value)) : Clears (.ask key next)
  | access (change : Context → Context) {next : Context → Procedure Key Value Context}
      (context : Context) (later : Clears (next context)) : Clears (.access change next)

end Procedure

/-- The state of an evaluation: a table, the context of the equations, and the keys whose equations
were evaluated in each pass of the call, the last one first. -/
structure Session (Key Value Context : Type) [BEq Key] [Hashable Key] where
  table : Table Key Value
  context : Context
  passes : List (List Key) := []

section Sessions

variable {Key Value Context : Type} [BEq Key] [Hashable Key]

namespace Session

/-- Takes note that the equation of a key is evaluated. -/
def evaluate (key : Key) (session : Session Key Value Context) : Session Key Value Context :=
  { session with passes := session.passes.modifyHead (key :: ·) }

/-- Takes note that another pass starts. -/
def startPass (session : Session Key Value Context) : Session Key Value Context :=
  { session with passes := [] :: session.passes }

/-- Computes a value from the context and changes the context. -/
def consult (compute : Context → Value × Context) : Eval (Session Key Value Context) Value :=
  modifyGet fun session =>
    ((compute session.context).1, { session with context := (compute session.context).2 })

/-- Forgets every value found so far, unless values are being computed. -/
def clear : Eval (Session Key Value Context) Unit := do
  match (← get).table.clear? with
  | some table => modify fun session => { session with table }
  | none => throw .tableInUse

end Session

/-- Follows a procedure, with `recur` for the values of keys. -/
def Procedure.run (recur : Key → Eval (Session Key Value Context) Value) :
    Procedure Key Value Context → Eval (Session Key Value Context) Value
  | answer value => pure value
  | ask key next => do (next (← recur key)).run recur
  | clear next => do
      Session.clear
      next.run recur
  | access change next => do
      let session ← get
      modify fun session => { session with context := change session.context }
      (next session.context).run recur

/-- Equations for finitely many keys that ask for each other. -/
structure Rules (Key Value Context : Type) where
  keys : Finset Key
  bottom : Key → Context → Value × Context
  equation : Key → Procedure Key Value Context
  /-- What is made of the bottom and the value of a key when its evaluation ends. -/
  settle : Key → (bottom value : Value) → Context → Value × Context :=
    fun _ _ value context => (value, context)
  closed : ∀ key ∈ keys, (equation key).Asks (· ∈ keys)

namespace Rules

variable (rules : Rules Key Value Context)

/-- The function that the equations define. -/
def solution : Recursion (Session Key Value Context) Key Value where
  table := Session.table
  modifyTable f session := { session with table := f session.table }
  bottom key := Session.consult (rules.bottom key)
  step recur key := do
    modify (Session.evaluate key)
    (rules.equation key).run recur
  finish key bottom value := Session.consult (rules.settle key bottom value)
  noteRepeated := Session.startPass
  noteExhausted _ session := session

variable [BEq Value]

/-- The value of a key, with a record of the passes made for it. -/
def call (fuel : Nat) (key : Key) : Eval (Session Key Value Context) Value := do
  modify fun session => { session with passes := [[]] }
  rules.solution.solve fuel key

/-- What may happen between two sessions without clearing the table: a call that answers, or a change
of the context. -/
inductive Turn : Session Key Value Context → Session Key Value Context → Prop where
  | call {before after : Session Key Value Context} {fuel : Nat} {root : Key} {value : Value}
      (inKeys : root ∈ rules.keys) (enough : rules.keys.card < fuel)
      (run : rules.call fuel root before = .ok value after) : Turn before after
  | change (session : Session Key Value Context) (context : Context) :
      Turn session { session with context }

/-- The sessions that calls leave, starting with an empty table. -/
inductive Left : Session Key Value Context → Prop where
  | start (strategy : Strategy) (context : Context) : Left { table := .empty strategy, context }
  | turn {before after : Session Key Value Context} (left : Left before)
      (turn : rules.Turn before after) : Left after
  | clear {session : Session Key Value Context} {table : Table Key Value} (left : Left session)
      (cleared : session.table.clear? = some table) : Left { session with table }

end Rules

/-! ## Calls -/

namespace Rules

variable (rules : Rules Key Value Context)

/-- A key is being evaluated whose equation may clear the table. -/
def ClearedInside (session : Session Key Value Context) : Prop :=
  ∃ key ∈ rules.keys, session.table.Running key ∧ (rules.equation key).Clears

/-- What an outermost call for `root` that answers makes of a table. -/
structure Completed (before : Table Key Value) (root : Key) (value : Value)
    (after : Session Key Value Context) : Prop where
  idle : ∀ key : Key, after.table.pending[key]? = none
  strategy_eq : after.table.strategy = before.strategy
  answer : after.table.get? root = some value
  kept : ∀ {key : Key} {value : Value}, before.get? key = some value →
    after.table.get? key = some value
  stored_iff : ∀ key : Key, (after.table.get? key).isSome ↔
    (before.get? key).isSome ∨ ∃ pass ∈ after.passes, key ∈ pass
  evaluated : ∀ {pass : List Key} {key : Key}, pass ∈ after.passes → key ∈ pass →
    key ∈ rules.keys ∧ before.get? key = none
  nodup : ∀ {pass : List Key}, pass ∈ after.passes → pass.Nodup
  passes_ne_nil : after.passes ≠ []
  length_le : after.passes.length ≤ before.strategy.repetitions + 1

/-- During a call, after the given passes: the running keys are those on the stack, and the keys with
pending values are those that some pass has evaluated. -/
structure Underway (base : Table Key Value) (earlier : List (List Key)) (stack : Finset Key)
    (session : Session Key Value Context) : Prop where
  settled_eq : session.table.settled = base.settled
  strategy_eq : session.table.strategy = base.strategy
  fresh : ∀ {key}, session.table.IsPending key → base.settled[key]? = none ∧ key ∈ rules.keys
  running_iff : ∀ {key}, session.table.Running key ↔ key ∈ stack
  passes_eq : ∃ pass, session.passes = pass :: earlier ∧ pass.Nodup ∧
    ∀ key, key ∈ pass ↔ session.table.Met key
  pending_iff : ∀ {key}, session.table.IsPending key ↔ ∃ pass ∈ session.passes, key ∈ pass

namespace Underway

variable {rules} {base : Table Key Value} {earlier : List (List Key)} {stack : Finset Key}
  {session session' : Session Key Value Context} {key root : Key} {value bottom : Value}

/-- The context does not matter. -/
theorem congr (underway : rules.Underway base earlier stack session)
    (table_eq : session'.table = session.table) (passes_eq : session'.passes = session.passes) :
    rules.Underway base earlier stack session' := by
  obtain ⟨table, context, passes⟩ := session'
  cases table_eq
  cases passes_eq
  obtain ⟨settled_eq, strategy_eq, fresh, running_iff, passes_eq, pending_iff⟩ := underway
  exact ⟨settled_eq, strategy_eq, fresh, running_iff, passes_eq, pending_iff⟩

/-- Before the first pass. -/
theorem first (idle : ∀ key : Key, base.pending[key]? = none) (isTable : session.table = base)
    (noPasses : session.passes = [[]]) : rules.Underway base [] ∅ session where
  settled_eq := by rw [isTable]
  strategy_eq := by rw [isTable]
  fresh found := by simp [Table.IsPending, isTable, idle] at found
  running_iff := by simp [Table.Running, isTable, idle]
  passes_eq := ⟨[], noPasses, List.nodup_nil, by simp [Table.Met, isTable, idle]⟩
  pending_iff := by simp [Table.IsPending, isTable, idle, noPasses]

/-- The marks of a table do not matter. -/
theorem remark {table : Table Key Value} (underway : rules.Underway base earlier stack session)
    (settled_eq : table.settled = session.table.settled)
    (pending_eq : table.pending = session.table.pending)
    (strategy_eq : table.strategy = session.table.strategy) :
    rules.Underway base earlier stack { session with table } := by
  have isPending_iff : table.IsPending = session.table.IsPending := by
    unfold Table.IsPending
    rw [pending_eq]
  have running_iff : table.Running = session.table.Running := by
    unfold Table.Running
    rw [pending_eq]
  have met_iff : table.Met = session.table.Met := by
    unfold Table.Met
    rw [pending_eq]
  constructor
  · rw [settled_eq]
    exact underway.settled_eq
  · rw [strategy_eq]
    exact underway.strategy_eq
  · rw [isPending_iff]
    exact underway.fresh
  · rw [running_iff]
    exact underway.running_iff
  · rw [met_iff]
    exact underway.passes_eq
  · rw [isPending_iff]
    exact underway.pending_iff

variable [LawfulBEq Key]

theorem inUse (underway : rules.Underway base earlier stack session) (nonempty : stack.Nonempty) :
    session.table.inUse = true := by
  obtain ⟨key, onStack⟩ := nonempty
  exact Table.inUse_of_isPending (underway.running_iff.mpr onStack).met.isPending

variable [DecidableEq Key]

/-- The evaluation of a key starts that was not met in this pass. -/
theorem start (underway : rules.Underway base earlier stack session) (inKeys : key ∈ rules.keys)
    (unsettled : base.settled[key]? = none) (unmet : ¬session.table.Met key) (bottom : Value) :
    rules.Underway base earlier (insert key stack)
      ({ session with table := session.table.start key bottom }.evaluate key) := by
  obtain ⟨pass, isPass, nodup, mem_pass_iff⟩ := underway.passes_eq
  have passes : session.passes.modifyHead (key :: ·) = (key :: pass) :: earlier := by
    rw [isPass]
    rfl
  constructor
  · exact underway.settled_eq
  · exact underway.strategy_eq
  · intro other isPending
    rcases Table.isPending_start.mp isPending with rfl | isPending
    · exact ⟨unsettled, inKeys⟩
    · exact underway.fresh isPending
  · intro other
    rw [Finset.mem_insert, ← underway.running_iff]
    exact Table.running_start
  · refine ⟨key :: pass, passes, ?_, fun other => ?_⟩
    · exact List.nodup_cons.mpr ⟨fun member => unmet ((mem_pass_iff key).mp member), nodup⟩
    · rw [List.mem_cons, mem_pass_iff]
      exact Table.met_start.symm
  · intro other
    change (session.table.start key bottom).IsPending other ↔
      ∃ pass ∈ session.passes.modifyHead (key :: ·), other ∈ pass
    rw [Table.isPending_start, underway.pending_iff, passes, isPass]
    simp [or_assoc]

/-- The evaluation of the key on top of the stack ends. -/
theorem record [BEq Value] (underway : rules.Underway base earlier (insert key stack) session)
    (notOnStack : key ∉ stack) :
    rules.Underway base earlier stack
      { session with table := session.table.record key value } := by
  obtain ⟨pass, isPass, nodup, mem_pass_iff⟩ := underway.passes_eq
  have running := underway.running_iff.mpr (Finset.mem_insert_self key stack)
  constructor
  · exact underway.settled_eq
  · exact underway.strategy_eq
  · intro other isPending
    rcases Table.isPending_record.mp isPending with rfl | isPending
    · exact underway.fresh running.met.isPending
    · exact underway.fresh isPending
  · intro other
    change (session.table.record key value).Running other ↔ _
    rw [Table.running_record, underway.running_iff, Finset.mem_insert]
    grind
  · refine ⟨pass, isPass, nodup, fun other => ?_⟩
    change _ ↔ (session.table.record key value).Met other
    rw [Table.met_record, mem_pass_iff, or_iff_right_of_imp]
    rintro rfl
    exact running.met
  · intro other
    rw [← underway.pending_iff]
    change (session.table.record key value).IsPending other ↔ _
    rw [Table.isPending_record, or_iff_right_of_imp]
    rintro rfl
    exact running.met.isPending

omit [DecidableEq Key] in
/-- Another pass starts at its outermost key. -/
theorem restart (underway : rules.Underway base earlier ∅ session)
    (isPending : session.table.IsPending root) :
    ∃ pass, session.passes = pass :: earlier ∧ pass.Nodup ∧
      rules.Underway base (pass :: earlier) {root}
        (({ session with table := session.table.restart root }.startPass).evaluate root) := by
  obtain ⟨pass, isPass, nodup, mem_pass_iff⟩ := underway.passes_eq
  refine ⟨pass, isPass, nodup, ?_⟩
  constructor
  · exact underway.settled_eq
  · exact underway.strategy_eq
  · intro other isPending
    exact underway.fresh (Table.isPending_restart.mp isPending)
  · intro other
    rw [Finset.mem_singleton]
    exact Table.running_restart isPending
  · refine ⟨[root], congrArg ([root] :: ·) isPass, List.nodup_singleton root, fun other => ?_⟩
    rw [List.mem_singleton]
    exact (Table.met_restart isPending).symm
  · intro other
    change (session.table.restart root).IsPending other ↔
      ∃ pass ∈ [root] :: session.passes, other ∈ pass
    rw [Table.isPending_restart, underway.pending_iff, List.exists_mem_cons_iff,
      or_iff_right_of_imp]
    intro isRoot
    rw [List.mem_singleton.mp isRoot]
    exact underway.pending_iff.mp isPending

omit [DecidableEq Key] in
/-- The pending values become final. -/
theorem complete {after : Session Key Value Context}
    (underway : rules.Underway base earlier ∅ session)
    (evaluated : session.table.pending[root]? = some ⟨value, .evaluated⟩)
    (distinct : ∀ pass ∈ earlier, pass.Nodup) (allowed : earlier.length ≤ base.strategy.repetitions)
    (settled_eq : after.table.settled = session.table.commit.settled)
    (pending_eq : after.table.pending = session.table.commit.pending)
    (strategy_eq : after.table.strategy = session.table.strategy)
    (passes_eq : after.passes = session.passes) : rules.Completed base root value after := by
  obtain ⟨pass, isPass, nodup, mem_pass_iff⟩ := underway.passes_eq
  have stored (key : Key) : after.table.get? key =
      ((session.table.pending[key]?).map Provisional.value).or base.settled[key]? := by
    rw [Table.get?, settled_eq, Table.settled_commit, underway.settled_eq]
  constructor
  · intro key
    rw [pending_eq]
    exact Table.pending_commit
  · rw [strategy_eq, underway.strategy_eq]
  · rw [stored, evaluated]
    rfl
  · intro key value found
    have settled : base.settled[key]? = some value := found
    have unknown : session.table.pending[key]? = none := by
      by_contra isPending
      have unsettled := (underway.fresh (Option.isSome_iff_ne_none.mpr isPending)).1
      simp [unsettled] at settled
    rw [stored, unknown]
    exact settled
  · intro key
    rw [stored, Option.isSome_or, Option.isSome_map, Bool.or_eq_true, or_comm, passes_eq]
    exact or_congr_right underway.pending_iff
  · intro pass key isPass member
    rw [passes_eq] at isPass
    obtain ⟨unsettled, inKeys⟩ := underway.fresh (underway.pending_iff.mpr ⟨pass, isPass, member⟩)
    exact ⟨inKeys, unsettled⟩
  · intro pass' member
    rw [passes_eq, isPass] at member
    rcases List.mem_cons.mp member with rfl | member
    · exact nodup
    · exact distinct pass' member
  · simp [passes_eq, isPass]
  · rw [passes_eq, isPass, List.length_cons]
    omega

end Underway

/-! ## Evaluation -/

section Evaluation

open Eval

variable {rules} [LawfulBEq Key] [DecidableEq Key] [BEq Value]
  {base : Table Key Value} {earlier : List (List Key)} {stack : Finset Key}
  {session : Session Key Value Context} {key root : Key} {value bottom : Value} {fuel : Nat}

omit [LawfulBEq Key] [DecidableEq Key] [BEq Value] in
theorem ends_consult (compute : Context → Value × Context)
    (halted : Session Key Value Context → Prop) :
    (Session.consult compute).Ends session
      (fun _ after => after.table = session.table ∧ after.passes = session.passes) halted :=
  .inl ⟨_, _, rfl, rfl, rfl⟩

omit [LawfulBEq Key] [DecidableEq Key] [BEq Value] in
/-- A procedure keeps what its questions keep, if the table is in use all the while. -/
theorem ends_run {Invariant halted : Session Key Value Context → Prop}
    {recur : Key → Eval (Session Key Value Context) Value}
    {procedure : Procedure Key Value Context} (asks : procedure.Asks (· ∈ rules.keys))
    (answered : ∀ key ∈ rules.keys, ∀ session, Invariant session →
      (recur key).Ends session (fun _ after => Invariant after) halted)
    (inUse : ∀ session, Invariant session → session.table.inUse = true)
    (accessed : ∀ session context, Invariant session → Invariant { session with context })
    (halts : procedure.Clears → ∀ session, Invariant session → halted session)
    (invariant : Invariant session) :
    (procedure.run recur).Ends session (fun _ after => Invariant after) halted := by
  induction asks generalizing session with
  | answer value => exact ends_pure invariant
  | ask inKeys rest inductionHypothesis =>
      apply (answered _ inKeys session invariant).bind
      intro value between invariant
      exact inductionHypothesis value (fun later => halts (.ask _ value later)) invariant
  | clear rest =>
      right
      refine ⟨session, ?_, halts (.clear _) session invariant⟩
      have refused : session.table.clear? = none := by
        simp [Table.clear?, inUse session invariant]
      rw [Procedure.run, Session.clear, bind_assoc, bind_get, refused]
      rfl
  | access change rest inductionHypothesis =>
      exact inductionHypothesis session.context (fun later => halts (.access change _ later))
        (accessed session _ invariant)

/-- A nested call ends, and leaves the stack as it was. -/
def Nested (rules : Rules Key Value Context) (base : Table Key Value) (earlier : List (List Key))
    (fuel : Nat) : Prop :=
  ∀ {key : Key} {stack : Finset Key} {session : Session Key Value Context},
    rules.Underway base earlier stack session → stack.Nonempty →
    (rules.keys \ stack).card < fuel → key ∈ rules.keys →
    (rules.solution.solve fuel key).Ends session
      (fun _ after => rules.Underway base earlier stack after) rules.ClearedInside

/-- Evaluating the key on top of the stack. -/
theorem ends_pass (nested : rules.Nested base earlier fuel)
    (underway : rules.Underway base earlier (insert key stack) (session.evaluate key))
    (notOnStack : key ∉ stack) (enough : (rules.keys \ insert key stack).card < fuel)
    (inKeys : key ∈ rules.keys) :
    (rules.solution.pass fuel key bottom).Ends session
      (fun value after => rules.Underway base earlier stack after ∧
        after.table.pending[key]? = some ⟨value, .evaluated⟩) rules.ClearedInside := by
  have nonempty := Finset.insert_nonempty key stack
  have evaluation : (rules.solution.step (rules.solution.solve fuel) key).Ends session
      (fun _ after => rules.Underway base earlier (insert key stack) after)
      rules.ClearedInside := by
    apply Ends.after_modify
    apply ends_run (rules.closed key inKeys) _ _ _ _ underway
    · intro other inKeys session underway
      exact nested underway nonempty enough inKeys
    · intro session underway
      exact underway.inUse nonempty
    · intro session context underway
      exact underway.congr rfl rfl
    · intro clears session underway
      exact ⟨key, inKeys, underway.running_iff.mpr (Finset.mem_insert_self key stack), clears⟩
  unfold Recursion.pass
  apply evaluation.bind
  intro value between underway
  apply (ends_consult (rules.settle key bottom value) rules.ClearedInside).bind
  rintro value between' ⟨isTable, samePasses⟩
  apply Ends.after_modify
  apply ends_pure
  exact ⟨(underway.congr isTable samePasses).record notOnStack, Table.pending_record_self⟩

/-- Every nested call ends if its fuel exceeds the number of keys that are not on the stack. -/
theorem nested (fuel : Nat) : rules.Nested base earlier fuel := by
  induction fuel with
  | zero =>
      intro key stack session _ _ enough
      exact absurd enough (Nat.not_lt_zero _)
  | succ fuel inductionHypothesis =>
      intro key stack session underway nonempty enough inKeys
      rcases session.table.lookup_cases key with ⟨value, _, isKnown⟩ |
        ⟨_, value, _, isReentrant⟩ | ⟨_, value, _, isKnown⟩ | ⟨_, _, isUnknown⟩
      · exact .inl ((Recursion.yields_solve_known isKnown).mpr underway)
      · left
        apply (Recursion.yields_solve_reentrant isReentrant).mpr
        exact underway.remark rfl rfl rfl
      · exact .inl ((Recursion.yields_solve_known isKnown).mpr underway)
      · obtain ⟨unsettled, unmet⟩ := Table.lookup_eq_unknown_iff.mp isUnknown
        have notOnStack : key ∉ stack :=
          fun onStack => unmet (underway.running_iff.mpr onStack).met
        have enough' : (rules.keys \ insert key stack).card < fuel := by
          have member : key ∈ rules.keys \ stack := Finset.mem_sdiff.mpr ⟨inKeys, notOnStack⟩
          have fewer := Finset.card_erase_lt_of_mem member
          rw [← Finset.sdiff_insert] at fewer
          omega
        rw [underway.settled_eq] at unsettled
        apply Ends.of_eq _ (Recursion.solve_of_nested isUnknown (underway.inUse nonempty))
        apply (ends_consult (rules.bottom key) rules.ClearedInside).bind
        rintro bottom between ⟨isTable, samePasses⟩
        have underway := (underway.congr isTable samePasses).start inKeys unsettled
          (isTable ▸ unmet) bottom
        apply Ends.after_modify
        exact (ends_pass inductionHypothesis underway notOnStack enough' inKeys).mono
          fun value after holds => holds.1

/-- All passes of an outermost call. -/
theorem ends_passes (inKeys : root ∈ rules.keys) (enough : rules.keys.card ≤ fuel)
    (repetitions : Nat) (allowed : repetitions + earlier.length = base.strategy.repetitions)
    (distinct : ∀ pass ∈ earlier, pass.Nodup)
    (underway : rules.Underway base earlier {root} (session.evaluate root)) :
    (rules.solution.passes root (rules.solution.pass fuel root bottom) repetitions).Ends session
      (fun value after => rules.Completed base root value after) rules.ClearedInside := by
  have fewer : (rules.keys \ insert root ∅).card < fuel := by
    have := Finset.card_erase_lt_of_mem inKeys
    rw [insert_empty_eq, Finset.sdiff_singleton_eq_erase]
    omega
  rw [← insert_empty_eq] at underway
  induction repetitions generalizing session earlier with
  | zero =>
      rw [Recursion.passes]
      apply (ends_pass (nested fuel) underway (Finset.notMem_empty root) fewer inKeys).bind
      rintro value after ⟨underway, evaluated⟩
      left
      cases unstable : after.table.unstable with
      | true =>
          simp only [yields_bind, yields_get, Recursion.giveUp, solution, unstable, if_true,
            yields_modify, yields_pure]
          exact underway.complete evaluated distinct (by omega) rfl rfl rfl rfl
      | false =>
          simp only [yields_bind, yields_get, solution, unstable, Bool.false_eq_true, if_false,
            yields_modify, yields_pure]
          exact underway.complete evaluated distinct (by omega) rfl rfl rfl rfl
  | succ repetitions inductionHypothesis =>
      rw [Recursion.passes]
      apply (ends_pass (nested fuel) underway (Finset.notMem_empty root) fewer inKeys).bind
      rintro value after ⟨underway, evaluated⟩
      cases unstable : after.table.unstable with
      | true =>
          obtain ⟨pass, _, nodup, underway⟩ :=
            underway.restart (Option.isSome_of_eq_some evaluated)
          rw [← insert_empty_eq] at underway
          apply Ends.of_eq (inductionHypothesis _ _ underway)
          · rw [bind_get, if_pos (by exact unstable)]
            rfl
          · rw [List.length_cons]
            omega
          · intro pass' member
            rcases List.mem_cons.mp member with rfl | member
            · exact nodup
            · exact distinct pass' member
      | false =>
          left
          simp only [yields_bind, yields_get, solution, unstable, Bool.false_eq_true, if_false,
            yields_modify, yields_pure]
          exact underway.complete evaluated distinct (by omega) rfl rfl rfl rfl

omit [LawfulBEq Key] [DecidableEq Key] [BEq Value] in
/-- A call for a stored value evaluates nothing. -/
theorem completed_of_settled (idle : ∀ key : Key, session.table.pending[key]? = none)
    (noPasses : session.passes = [[]]) (settled : session.table.settled[root]? = some value) :
    rules.Completed session.table root value session where
  idle := idle
  strategy_eq := rfl
  answer := settled
  kept found := found
  stored_iff := by simp [noPasses]
  evaluated isPass member := by
    rw [noPasses, List.mem_singleton] at isPass
    simp [isPass] at member
  nodup isPass := by
    rw [noPasses, List.mem_singleton] at isPass
    simp [isPass]
  passes_ne_nil := by simp [noPasses]
  length_le := by simp [noPasses]

/-- An outermost call ends. -/
theorem ends_call (idle : ∀ key : Key, session.table.pending[key]? = none)
    (inKeys : root ∈ rules.keys) (enough : rules.keys.card < fuel) :
    (rules.call fuel root).Ends session
      (fun value after => rules.Completed session.table root value after) rules.ClearedInside := by
  obtain ⟨fuel, rfl⟩ : ∃ rest, fuel = rest + 1 := ⟨fuel - 1, by omega⟩
  apply Ends.after_modify
  generalize isBetween : ({ session with passes := [[]] } : Session Key Value Context) = between
  have noPasses : between.passes = [[]] := by rw [← isBetween]
  have isTable : between.table = session.table := by rw [← isBetween]
  rw [← isTable] at idle ⊢
  have notInUse : between.table.inUse = false := Table.not_inUse_iff.mpr idle
  rcases between.table.lookup_cases root with ⟨value, settled, isKnown⟩ | ⟨_, value, running, _⟩ |
    ⟨_, value, evaluated, _⟩ | ⟨unsettled, _, isUnknown⟩
  · left
    apply (Recursion.yields_solve_known isKnown).mpr
    exact completed_of_settled idle noPasses settled
  · simp [idle] at running
  · simp [idle] at evaluated
  · have underway : rules.Underway between.table [] ∅ between := .first idle rfl noPasses
    apply Ends.of_eq _ (Recursion.solve_of_outermost isUnknown notInUse)
    apply (ends_consult (rules.bottom root) rules.ClearedInside).bind
    rintro bottom between' ⟨isTable', samePasses⟩
    have started : rules.Underway between.table [] {root}
        ({ between' with table := between'.table.startPasses.start root bottom }.evaluate root) := by
      have underway : rules.Underway between.table [] ∅
          { between' with table := between'.table.startPasses } :=
        (underway.congr isTable' samePasses).remark rfl rfl rfl
      exact underway.start inKeys unsettled
        (by simp [Table.Met, isTable', Table.startPasses, idle]) bottom
    have allowed : between'.table.strategy.repetitions + 0 = between.table.strategy.repetitions := by
      rw [isTable', Nat.add_zero]
    exact (ends_passes inKeys (Nat.le_of_lt_succ enough) _ allowed (by simp) started).of_eq rfl

/-- A turn leaves an idle table, and no less in it than before. -/
theorem Turn.keeps {before after : Session Key Value Context} (turn : rules.Turn before after)
    (idle : ∀ key : Key, before.table.pending[key]? = none) :
    (∀ key : Key, after.table.pending[key]? = none) ∧
      ∀ {key : Key} {value : Value}, before.table.get? key = some value →
        after.table.get? key = some value := by
  cases turn with
  | call inKeys enough run =>
      rcases ends_call idle inKeys enough with ⟨_, _, run', completed⟩ | ⟨_, run', _⟩
      · cases run.symm.trans run'
        exact ⟨completed.idle, completed.kept⟩
      · cases run.symm.trans run'
  | change context => exact ⟨idle, fun found => found⟩

theorem Left.idle (left : rules.Left session) (key : Key) :
    session.table.pending[key]? = none := by
  induction left generalizing key with
  | start strategy context => exact Table.pending_empty strategy key
  | turn _ turn inductionHypothesis => exact (turn.keeps inductionHypothesis).1 key
  | clear _ cleared inductionHypothesis =>
      rw [Table.clear?_of_not_inUse (Table.not_inUse_iff.mpr inductionHypothesis)] at cleared
      cases cleared
      exact Table.pending_empty _ key

/-- What is stored lasts until the table is cleared. -/
theorem kept_of_turns {earlier : Session Key Value Context}
    (idle : ∀ key : Key, earlier.table.pending[key]? = none)
    (turns : Relation.ReflTransGen rules.Turn earlier session) :
    (∀ key : Key, session.table.pending[key]? = none) ∧
      ∀ {key : Key} {value : Value}, earlier.table.get? key = some value →
        session.table.get? key = some value := by
  induction turns with
  | refl => exact ⟨idle, fun found => found⟩
  | tail _ turn inductionHypothesis =>
      obtain ⟨idle, kept⟩ := inductionHypothesis
      obtain ⟨idle, kept'⟩ := turn.keeps idle
      exact ⟨idle, fun found => kept' (kept found)⟩

/-- Whatever calls came before, another one ends: it answers, and then it is completed, or the
equation of a key under evaluation has cleared the table, which is impossible between calls.  The
passes are no more than the strategy allows, and a key that was stored since the table was last
cleared is in none of them. -/
theorem call_disciplined {before : Session Key Value Context} (left : rules.Left before)
    (inKeys : root ∈ rules.keys) (enough : rules.keys.card < fuel) :
    before.table.clear? = some (.empty before.table.strategy) ∧
      ((∃ after, rules.call fuel root before = .error .tableInUse after ∧
          rules.ClearedInside after) ∨
        ∃ value after, rules.call fuel root before = .ok value after ∧
          rules.Completed before.table root value after ∧
          (before.table.strategy = .singlePass → after.passes.length = 1) ∧
          (∀ maxPasses, before.table.strategy = .iterate maxPasses →
            after.passes.length ≤ max 1 maxPasses) ∧
          ∀ earlier key, Relation.ReflTransGen rules.Turn earlier before → rules.Left earlier →
            (earlier.table.get? key).isSome → ∀ pass ∈ after.passes, key ∉ pass) := by
  refine ⟨Table.clear?_of_not_inUse (Table.not_inUse_iff.mpr left.idle), ?_⟩
  rcases ends_call left.idle inKeys enough with ⟨value, after, run, completed⟩ | halts
  · right
    refine ⟨value, after, run, completed, ?_, ?_, ?_⟩
    · intro singlePass
      have length_le := completed.length_le
      have length_pos := List.length_pos_iff.mpr completed.passes_ne_nil
      rw [singlePass, Strategy.repetitions] at length_le
      omega
    · intro maxPasses iterates
      have length_le := completed.length_le
      rw [iterates, Strategy.repetitions] at length_le
      omega
    · intro earlier key turns left' isStored pass isPass member
      obtain ⟨stored, found⟩ := Option.isSome_iff_exists.mp isStored
      have found := (kept_of_turns left'.idle turns).2 found
      simp [(completed.evaluated isPass member).2] at found
  · exact .inl halts

end Evaluation

end Rules

/-- Two keys that ask for each other and count how often they were evaluated.  Their values grow from
pass to pass. -/
def growing : Rules Bool Nat Nat where
  keys := Finset.univ
  bottom key count := (key.toNat, count)
  equation key :=
    .access (· + 1) fun count => .ask (!key) fun value => .answer (value + count)
  settle _ bottom value count := (value + bottom, count)
  closed _ _ := .access _ fun _ => .ask (Finset.mem_univ _) fun _ => .answer _

theorem call_disciplined_growing : ∃ value after,
    growing.call 3 false { table := .empty (.iterate 4), context := 0 } = .ok value after ∧
      after.passes.length ≤ 4 ∧ (∀ pass ∈ after.passes, pass.Nodup) ∧
      after.table.get? false = some value := by
  have left : growing.Left _ := .start (.iterate 4) 0
  obtain ⟨_, ⟨_, _, key, _, _, clears⟩ | ⟨value, after, run, completed, _, length_le, _⟩⟩ :=
    Rules.call_disciplined left (Finset.mem_univ false) (show growing.keys.card < 3 by decide)
  · cases clears with
    | access _ _ later =>
        cases later with
        | ask _ _ later => cases later
  · exact ⟨value, after, run, length_le 4 rfl, fun _ => completed.nodup, completed.answer⟩

end Sessions

end Residual.Memo
