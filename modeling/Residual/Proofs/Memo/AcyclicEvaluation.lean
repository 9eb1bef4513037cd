import Residual.Proofs.Memo.Discipline
import Residual.Proofs.Memo.PlainRecursion

/-!
# Evaluation without circular dependencies

Where no key depends on itself, a memoizing evaluation is plain recursion with its repetitions left
out.  `Descending` is the invariant: the keys that plain recursion has visited so far, less those
that were stored before and each counted once, are the record of the pass, and whatever the table
knows is what plain recursion comes to, down to the last key below it (`Sound`).

A key under evaluation leads to every key that is asked for meanwhile.  So it is not asked for
itself, no provisional value is told, and no pass is repeated although values change.
-/

set_option autoImplicit false

namespace Residual.Memo

/-! ## What is new to a table -/

namespace Table

variable {Key Value : Type} [BEq Key] [Hashable Key] {table : Table Key Value}
  {visited course : List Key} {key : Key}

/-- The keys of a course that are not stored, each where it comes first. -/
def fresh (table : Table Key Value) (course : List Key) : List Key :=
  (course.filter fun key => (table.get? key).isNone).eraseDups

variable [LawfulBEq Key]

/-- Nothing is new in a course of keys that are stored or were visited before. -/
theorem fresh_append_of_old (old : ∀ key ∈ course, table.get? key = none → key ∈ visited) :
    table.fresh (visited ++ course) = table.fresh visited := by
  unfold fresh
  rw [List.filter_append, List.eraseDups_append]
  suffices nothing : (course.filter fun key => (table.get? key).isNone).removeAll
      (visited.filter fun key => (table.get? key).isNone) = [] by
    rw [nothing, List.eraseDups_nil, List.append_nil]
  apply List.filter_eq_nil_iff.mpr
  intro key member
  obtain ⟨member, isNew⟩ := List.mem_filter.mp member
  have seen := old key member (Option.isNone_iff_eq_none.mp isNew)
  simp only [Bool.not_eq_true', Bool.not_eq_false, List.elem_eq_mem, decide_eq_true_eq]
  exact List.mem_filter.mpr ⟨seen, isNew⟩

theorem fresh_append_new (unstored : table.get? key = none) (unvisited : key ∉ visited) :
    table.fresh (visited ++ [key]) = table.fresh visited ++ [key] := by
  unfold fresh
  rw [List.filter_append, List.eraseDups_append]
  congr 1
  have isNew : (visited.filter fun key => (table.get? key).isNone).elem key = false := by
    rw [List.elem_eq_mem, decide_eq_false_iff_not]
    exact fun member => unvisited (List.mem_filter.mp member).1
  rw [List.filter_cons, if_pos (by rw [unstored]; rfl), List.filter_nil, List.removeAll,
    List.filter_cons, if_pos (by rw [isNew]; rfl), List.filter_nil]
  rfl

end Table

/-! ## Passes that are final -/

namespace Recursion

open Eval

variable {State Key Value : Type} [BEq Key] [Hashable Key] {function : Recursion State Key Value}
  {key : Key} {pass : Eval State Value} {repetitions : Nat} {state : State}
  {post : Value → State → Prop}

/-- If the first pass leaves nothing unstable, it is the last one. -/
theorem passes_of_stable {value : Value} {after : State} (answered : pass state = .ok value after)
    (stable : (function.table after).unstable = false) :
    function.passes key pass repetitions state =
      .ok value (function.modifyTable Table.commit after) := by
  cases repetitions <;>
  · rw [passes, bind_of_ok answered, bind_get, stable]
    rfl

theorem yields_passes_of_stable (yields : pass.Yields state fun value after =>
      (function.table after).unstable = false ∧
        post value (function.modifyTable Table.commit after)) :
    (function.passes key pass repetitions).Yields state post := by
  obtain ⟨value, after, answered, stable, holds⟩ := yields
  exact ⟨value, _, passes_of_stable answered stable, holds⟩

theorem ensures_passes_of_stable (ensures : Ensures pass state fun value after =>
      (function.table after).unstable = false ∧
        post value (function.modifyTable Table.commit after)) :
    Ensures (function.passes key pass repetitions) state post := by
  cases answered : pass state with
  | ok value after =>
      obtain ⟨stable, holds⟩ := ensures.of_ok answered
      constructor
      intro value' after' run
      cases (passes_of_stable answered stable).symm.trans run
      exact holds
  | error halt after =>
      constructor
      intro value' after' run
      cases repetitions <;> simp [passes, bind, EStateM.bind, answered] at run

end Recursion

/-! ## Memoizing evaluation -/

namespace OpenSystem

variable {Key Value : Type} [BEq Key] [Hashable Key] (system : OpenSystem Key Value)

/-- The function that the equations define, with a record of the equations that are entered. -/
def solution : Recursion (Session Key Value Unit) Key Value where
  table := Session.table
  modifyTable f session := { session with table := f session.table }
  bottom key := pure (system.bottom key)
  step recur key := do
    modify (Session.evaluate key)
    (system.equation key).run recur
  noteRepeated := Session.startPass
  noteExhausted _ session := session

/-- Whatever the table knows is what plain recursion comes to, and the table knows all that it
enters on the way. -/
def Sound (table : Table Key Value) : Prop :=
  ∀ {key : Key} {value : Value}, table.lookup key = .known value →
    ∃ below, system.Follows (system.equation key) value below ∧
      ∀ other ∈ below, ∃ told, table.lookup other = .known told

/-- The first pass of a call, after plain recursion has visited these keys, while the keys on the
stack are being evaluated. -/
structure Descending (base : Table Key Value) (stack : List Key) (visited : List Key)
    (session : Session Key Value Unit) : Prop where
  settled_eq : session.table.settled = base.settled
  strategy_eq : session.table.strategy = base.strategy
  truncated_eq : session.table.truncated = base.truncated
  notReentered : session.table.reentered = false
  current : ∀ {key : Key} {entry : Provisional Value}, session.table.pending[key]? = some entry →
    entry.phase ≠ .carried
  running_iff : ∀ {key : Key}, session.table.Running key ↔ key ∈ stack
  isPending_iff : ∀ {key : Key}, session.table.IsPending key ↔ key ∈ visited ∧ base.get? key = none
  passes_eq : session.passes = [(base.fresh visited).reverse]
  sound : system.Sound session.table

section Calls

variable [BEq Value]

/-- The value of a key, with a record of the passes made for it. -/
def call (fuel : Nat) (key : Key) : Eval (Session Key Value Unit) Value := do
  modify fun session => { session with passes := [[]] }
  system.solution.solve fuel key

/-- The sessions that calls leave, starting with an empty table. -/
inductive Left : Session Key Value Unit → Prop where
  | start (strategy : Strategy) : Left { table := .empty strategy, context := () }
  | call {before after : Session Key Value Unit} {fuel : Nat} {root : Key} {value : Value}
      (left : Left before) (run : system.call fuel root before = .ok value after) : Left after
  | clear {session : Session Key Value Unit} {table : Table Key Value} (left : Left session)
      (cleared : session.table.clear? = some table) : Left { session with table }

end Calls

variable {system} {base : Table Key Value}
  {stack visited : List Key} {session : Session Key Value Unit} {key root : Key}
  {value bottom : Value} {fuel : Nat}

namespace Descending

/-- A visited key that is not being evaluated is known. -/
theorem known (descending : system.Descending base stack visited session) (member : key ∈ visited)
    (notOnStack : key ∉ stack) : ∃ value, session.table.lookup key = .known value := by
  cases stored : base.get? key with
  | some value =>
      refine ⟨value, Table.lookup_eq_known_iff.mpr (.inl ?_)⟩
      rw [descending.settled_eq]
      exact stored
  | none =>
      have isPending := descending.isPending_iff.mpr ⟨member, stored⟩
      obtain ⟨⟨value, phase⟩, found⟩ := Option.isSome_iff_exists.mp isPending
      refine ⟨value, Table.lookup_eq_known_iff.mpr (.inr ⟨?_, ?_⟩)⟩
      · rw [descending.settled_eq]
        exact stored
      · cases phase with
        | running => exact absurd (descending.running_iff.mp ⟨value, found⟩) notOnStack
        | evaluated => exact found
        | carried => exact absurd rfl (descending.current found)

/-- What is known was visited or was known before. -/
theorem old (descending : system.Descending base stack visited session)
    (isKnown : session.table.lookup key = .known value) (unstored : base.get? key = none) :
    key ∈ visited := by
  have unsettled : session.table.settled[key]? = none := by
    rw [descending.settled_eq]
    exact unstored
  rcases Table.lookup_eq_known_iff.mp isKnown with settled | ⟨_, evaluated⟩
  · cases unsettled.symm.trans settled
  · exact (descending.isPending_iff.mp (Option.isSome_of_eq_some evaluated)).1

variable [LawfulBEq Key]

theorem inUse (descending : system.Descending base stack visited session) (nonempty : stack ≠ []) :
    session.table.inUse = true := by
  obtain ⟨key, onStack⟩ := List.exists_mem_of_ne_nil stack nonempty
  exact Table.inUse_of_isPending (descending.running_iff.mpr onStack).met.isPending

/-- Visiting keys again that are known changes nothing. -/
theorem revisit {more : List Key} (descending : system.Descending base stack visited session)
    (allKnown : ∀ key ∈ more, ∃ value, session.table.lookup key = .known value) :
    system.Descending base stack (visited ++ more) session := by
  have again : ∀ key ∈ more, base.get? key = none → key ∈ visited := by
    intro key member unstored
    obtain ⟨value, isKnown⟩ := allKnown key member
    exact descending.old isKnown unstored
  obtain ⟨settled_eq, strategy_eq, truncated_eq, notReentered, current, running_iff, isPending_iff,
    passes_eq, sound⟩ := descending
  refine ⟨settled_eq, strategy_eq, truncated_eq, notReentered, current, running_iff, ?_, ?_, sound⟩
  · intro key
    rw [isPending_iff, List.mem_append]
    have := again key
    tauto
  · rw [Table.fresh_append_of_old again, passes_eq]

/-- A known key has the value that plain recursion comes to, which enters nothing new. -/
theorem answer (descending : system.Descending base stack visited session)
    (isKnown : session.table.lookup key = .known value) :
    ∃ course, system.Evaluates key value course ∧
      system.Descending base stack (visited ++ course) session := by
  obtain ⟨below, follows, allKnown⟩ := descending.sound isKnown
  refine ⟨key :: below, ⟨below, follows, rfl⟩, descending.revisit ?_⟩
  intro other member
  rcases List.mem_cons.mp member with rfl | member
  · exact ⟨value, isKnown⟩
  · exact allKnown other member

/-- The evaluation of a key starts. -/
theorem start (descending : system.Descending base stack visited session)
    (isUnknown : session.table.lookup key = .unknown) (bottom : Value) :
    system.Descending base (key :: stack) (visited ++ [key])
      ({ session with table := session.table.start key bottom }.evaluate key) := by
  obtain ⟨unsettled, unmet⟩ := Table.lookup_eq_unknown_iff.mp isUnknown
  rw [descending.settled_eq] at unsettled
  have notPending : ¬session.table.IsPending key := by
    intro isPending
    obtain ⟨entry, found⟩ := Option.isSome_iff_exists.mp isPending
    exact unmet ⟨entry, found, descending.current found⟩
  have unvisited : key ∉ visited :=
    fun member => notPending (descending.isPending_iff.mpr ⟨member, unsettled⟩)
  constructor
  · exact descending.settled_eq
  · exact descending.strategy_eq
  · exact descending.truncated_eq
  · exact descending.notReentered
  · intro other entry found
    change (session.table.start key bottom).pending[other]? = _ at found
    by_cases same : other = key
    · rw [same, Table.pending_start_self] at found
      cases found
      exact nofun
    · rw [Table.pending_start_of_ne same] at found
      exact descending.current found
  · intro other
    rw [List.mem_cons, ← descending.running_iff]
    exact Table.running_start
  · intro other
    change (session.table.start key bottom).IsPending other ↔ _
    rw [Table.isPending_start, descending.isPending_iff, List.mem_append, List.mem_singleton]
    constructor
    · rintro (rfl | ⟨member, unstored⟩)
      · exact ⟨.inr rfl, unsettled⟩
      · exact ⟨.inl member, unstored⟩
    · rintro ⟨member | same, unstored⟩
      · exact .inr ⟨member, unstored⟩
      · exact .inl same
  · rw [Table.fresh_append_new unsettled unvisited, List.reverse_append]
    change session.passes.modifyHead (key :: ·) = _
    rw [descending.passes_eq]
    rfl
  · intro other value isKnown
    obtain ⟨below, follows, allKnown⟩ :=
      descending.sound ((Table.lookup_start isUnknown).mp isKnown)
    refine ⟨below, follows, fun other member => ?_⟩
    obtain ⟨told, isKnown⟩ := allKnown other member
    exact ⟨told, (Table.lookup_start isUnknown).mpr isKnown⟩

/-- The evaluation of the key on top of the stack ends with what plain recursion comes to. -/
theorem record [BEq Value] {below : List Key}
    (descending : system.Descending base (key :: stack) (visited ++ key :: below) session)
    (notOnStack : key ∉ stack) (apart : ∀ other ∈ below, other ∉ key :: stack)
    (follows : system.Follows (system.equation key) value below) :
    system.Descending base stack (visited ++ key :: below)
      { session with table := session.table.record key value } := by
  have running := descending.running_iff.mpr (List.mem_cons_self : key ∈ key :: stack)
  have unsettled : session.table.settled[key]? = none := by
    rw [descending.settled_eq]
    exact (descending.isPending_iff.mp running.met.isPending).2
  have isUnknown : ∀ value, session.table.lookup key ≠ .known value := by
    intro value isKnown
    obtain ⟨_, found⟩ := running
    rcases Table.lookup_eq_known_iff.mp isKnown with settled | ⟨_, evaluated⟩
    · cases unsettled.symm.trans settled
    · cases found.symm.trans evaluated
  have keeps : ∀ {other : Key} {told : Value}, session.table.lookup other = .known told →
      (session.table.record key value).lookup other = .known told := by
    intro other told isKnown
    have distinct : other ≠ key := by
      rintro rfl
      exact isUnknown told isKnown
    exact (Table.lookup_record_of_ne distinct).mpr isKnown
  constructor
  · exact descending.settled_eq
  · exact descending.strategy_eq
  · exact descending.truncated_eq
  · exact descending.notReentered
  · intro other entry found
    change (session.table.record key value).pending[other]? = _ at found
    by_cases same : other = key
    · rw [same, Table.pending_record_self] at found
      cases found
      exact nofun
    · rw [Table.pending_record_of_ne same] at found
      exact descending.current found
  · intro other
    change (session.table.record key value).Running other ↔ _
    rw [Table.running_record, descending.running_iff, List.mem_cons]
    constructor
    · rintro ⟨distinct, same | member⟩
      · exact absurd same distinct
      · exact member
    · intro member
      refine ⟨?_, .inr member⟩
      rintro rfl
      exact notOnStack member
  · intro other
    change (session.table.record key value).IsPending other ↔ _
    rw [Table.isPending_record, or_iff_right_of_imp, descending.isPending_iff]
    rintro rfl
    exact running.met.isPending
  · exact descending.passes_eq
  · intro other told isKnown
    change (session.table.record key value).lookup other = _ at isKnown
    by_cases same : other = key
    · subst same
      cases (Table.lookup_record_self unsettled).symm.trans isKnown
      refine ⟨below, follows, fun other member => ?_⟩
      obtain ⟨told, isKnown⟩ := descending.known
        (List.mem_append_right visited (List.mem_cons_of_mem _ member)) (apart other member)
      exact ⟨told, keeps isKnown⟩
    · obtain ⟨below, follows, allKnown⟩ :=
        descending.sound ((Table.lookup_record_of_ne same).mp isKnown)
      refine ⟨below, follows, fun other member => ?_⟩
      obtain ⟨told, isKnown⟩ := allKnown other member
      exact ⟨told, keeps isKnown⟩

omit [LawfulBEq Key] in
/-- No pass is repeated. -/
theorem stable (descending : system.Descending base stack visited session) :
    session.table.unstable = false := by
  simp [Table.unstable, descending.notReentered]

end Descending

section Evaluation

open Eval

variable [LawfulBEq Key] [BEq Value]

/-- A nested call answers as plain recursion does, and visits what plain recursion enters. -/
def Nested (system : OpenSystem Key Value) (base : Table Key Value) (fuel : Nat) : Prop :=
  ∀ {key : Key} {stack visited : List Key} {session : Session Key Value Unit},
    system.Descending base stack visited session → stack ≠ [] →
    (∀ above ∈ stack, Relation.TransGen system.DependsOn above key) →
    Ensures (system.solution.solve fuel key) session fun value after =>
      ∃ course, system.Evaluates key value course ∧
        system.Descending base stack (visited ++ course) after

omit [LawfulBEq Key] in
theorem ensures_run (nested : system.Nested base fuel) {reading : Reading Key Value Value}
    (descending : system.Descending base stack visited session) (nonempty : stack ≠ [])
    (path : ∀ other, system.ComesTo other reading →
      ∀ above ∈ stack, Relation.TransGen system.DependsOn above other) :
    Ensures (reading.run (system.solution.solve fuel)) session fun value after =>
      ∃ course, system.Follows reading value course ∧
        system.Descending base stack (visited ++ course) after := by
  induction reading generalizing visited session with
  | answer value =>
      rw [Reading.run, ensures_pure]
      exact ⟨[], .answer value, by rwa [List.append_nil]⟩
  | ask key next inductionHypothesis =>
      rw [Reading.run, ensures_bind]
      apply (nested descending nonempty (path key (.here next))).mono
      intro told between answered
      obtain ⟨_, ⟨below, asked, rfl⟩, descending⟩ := answered
      apply (inductionHypothesis told descending fun other comes =>
        path other (.later asked comes)).mono
      intro value after answered
      obtain ⟨rest, later, descending⟩ := answered
      exact ⟨key :: below ++ rest, .ask asked later, by rwa [← List.append_assoc]⟩

omit [BEq Key] [Hashable Key] [LawfulBEq Key] [BEq Value] in
/-- The stack with the key on top leads to what the key asks for. -/
theorem path_onward (path : ∀ above ∈ stack, Relation.TransGen system.DependsOn above key)
    (other : Key) (comes : system.ComesTo other (system.equation key)) :
    ∀ above ∈ key :: stack, Relation.TransGen system.DependsOn above other := by
  intro above onStack
  rcases List.mem_cons.mp onStack with rfl | onStack
  · exact .single comes
  · exact (path above onStack).tail comes

/-- Evaluating the key on top of the stack. -/
theorem ensures_pass (acyclic : system.Acyclic) (nested : system.Nested base fuel)
    (descending : system.Descending base (key :: stack) (visited ++ [key]) (session.evaluate key))
    (path : ∀ above ∈ stack, Relation.TransGen system.DependsOn above key) :
    Ensures (system.solution.pass fuel key bottom) session fun value after =>
      ∃ course, system.Evaluates key value course ∧
        system.Descending base stack (visited ++ course) after := by
  have notOnStack : key ∉ stack := fun onStack => acyclic key (path key onStack)
  simp only [Recursion.pass, solution, ensures_bind, ensures_modify, ensures_pure]
  apply (ensures_run nested descending (List.cons_ne_nil key stack) (path_onward path)).mono
  intro value after answered
  obtain ⟨below, follows, descending⟩ := answered
  rw [List.append_assoc, List.singleton_append] at descending
  refine ⟨key :: below, ⟨below, follows, rfl⟩, descending.record notOnStack ?_ follows⟩
  intro other member onStack
  rcases List.mem_cons.mp onStack with rfl | onStack
  · exact acyclic other (follows.dependsOn member)
  · exact acyclic other ((path other onStack).trans (follows.dependsOn member))

/-- A key under evaluation is never reached again, so that no provisional value is told. -/
theorem nested (acyclic : system.Acyclic) (fuel : Nat) : system.Nested base fuel := by
  induction fuel with
  | zero =>
      intro key stack visited session _ _ _
      exact ensures_throw _ _
  | succ fuel inductionHypothesis =>
      intro key stack visited session descending nonempty path
      rcases session.table.lookup_cases key with ⟨value, _, isKnown⟩ |
        ⟨_, value, running, _⟩ | ⟨_, value, _, isKnown⟩ | ⟨_, _, isUnknown⟩
      · exact (Recursion.ensures_solve_known isKnown).mpr (descending.answer isKnown)
      · exact absurd (path key (descending.running_iff.mp ⟨value, running⟩)) (acyclic key)
      · exact (Recursion.ensures_solve_known isKnown).mpr (descending.answer isKnown)
      · apply (Recursion.ensures_solve_nested isUnknown (descending.inUse nonempty)).mpr
        apply (ensures_pure _ _).mpr
        exact ensures_pass acyclic inductionHypothesis (descending.start isUnknown _) path

/-! ### Fuel -/

/-- A nested call answers if its fuel is the number of keys that plain recursion enters. -/
def Answers [DecidableEq Key] (system : OpenSystem Key Value) (base : Table Key Value)
    (fuel : Nat) : Prop :=
  ∀ {key : Key} {stack visited course : List Key} {session : Session Key Value Unit}
    {value : Value},
    system.Descending base stack visited session → stack ≠ [] →
    (∀ above ∈ stack, Relation.TransGen system.DependsOn above key) →
    system.Evaluates key value course → course.toFinset.card ≤ fuel →
    (system.solution.solve fuel key).Yields session fun _ _ => True

section Fuel

variable [DecidableEq Key] {course : List Key}

theorem yields_run (acyclic : system.Acyclic) (answers : system.Answers base fuel)
    {reading : Reading Key Value Value} (follows : system.Follows reading value course)
    (descending : system.Descending base stack visited session) (nonempty : stack ≠ [])
    (path : ∀ other, system.ComesTo other reading →
      ∀ above ∈ stack, Relation.TransGen system.DependsOn above other)
    (enough : course.toFinset.card ≤ fuel) :
    (reading.run (system.solution.solve fuel)).Yields session fun _ _ => True := by
  induction follows generalizing visited session with
  | answer value => exact (yields_pure _ _).mpr trivial
  | @ask key next told value below rest asked later _ inductionHypothesis =>
      rw [List.toFinset_append] at enough
      have enough_below := (Finset.card_le_card Finset.subset_union_left).trans enough
      have enough_rest := (Finset.card_le_card Finset.subset_union_right).trans enough
      have here := path key (.here next)
      have answered := answers descending nonempty here ⟨below, asked, rfl⟩ enough_below
      rw [Reading.run, yields_bind]
      apply (answered.and_ensures (nested acyclic fuel descending nonempty here)).mono
      intro told' between holds
      obtain ⟨_, _, ⟨below', asked', rfl⟩, descending⟩ := holds
      obtain ⟨rfl, rfl⟩ := asked.unique asked'
      exact inductionHypothesis descending (fun other comes => path other (.later asked comes))
        enough_rest

theorem yields_pass (acyclic : system.Acyclic) (answers : system.Answers base fuel)
    (descending : system.Descending base (key :: stack) (visited ++ [key]) (session.evaluate key))
    (path : ∀ above ∈ stack, Relation.TransGen system.DependsOn above key)
    (evaluates : system.Evaluates key value course) (enough : course.toFinset.card ≤ fuel + 1) :
    (system.solution.pass fuel key bottom).Yields session fun _ _ => True := by
  obtain ⟨below, follows, rfl⟩ := evaluates
  have notBelow : key ∉ below.toFinset := by
    rw [List.mem_toFinset]
    exact fun member => acyclic key (follows.dependsOn member)
  rw [List.toFinset_cons, Finset.card_insert_of_notMem notBelow] at enough
  simp only [Recursion.pass, solution, yields_bind, yields_modify, yields_pure]
  exact yields_run acyclic answers follows descending (List.cons_ne_nil key stack)
    (path_onward path) (Nat.le_of_succ_le_succ enough)

/-- The keys that plain recursion enters below a key are fewer than those it enters at the key. -/
theorem answers (acyclic : system.Acyclic) (fuel : Nat) : system.Answers base fuel := by
  induction fuel with
  | zero =>
      intro key stack visited course session value _ _ _ evaluates enough
      obtain ⟨below, _, rfl⟩ := evaluates
      simp at enough
  | succ fuel inductionHypothesis =>
      intro key stack visited course session value descending nonempty path evaluates enough
      rcases session.table.lookup_cases key with ⟨value, _, isKnown⟩ |
        ⟨_, value, running, _⟩ | ⟨_, value, _, isKnown⟩ | ⟨_, _, isUnknown⟩
      · exact (Recursion.yields_solve_known isKnown).mpr trivial
      · exact absurd (path key (descending.running_iff.mp ⟨value, running⟩)) (acyclic key)
      · exact (Recursion.yields_solve_known isKnown).mpr trivial
      · apply (Recursion.yields_solve_nested isUnknown (descending.inUse nonempty)).mpr
        apply (yields_pure _ _).mpr
        exact yields_pass acyclic inductionHypothesis (descending.start isUnknown _) path evaluates
          enough

end Fuel

/-! ### Calls -/

/-- What a call for `root` that answers makes of a table: the answer is that of plain recursion, what
is evaluated is what plain recursion enters and was not stored, in one pass and in this order, and
then it is stored. -/
structure Recurred (system : OpenSystem Key Value) (before : Table Key Value) (root : Key)
    (value : Value) (course : List Key) (after : Session Key Value Unit) : Prop where
  evaluates : system.Evaluates root value course
  passes_eq : after.passes = [(before.fresh course).reverse]
  stored_iff : ∀ key, (after.table.get? key).isSome ↔ (before.get? key).isSome ∨ key ∈ course
  kept : ∀ {key : Key} {value : Value}, before.get? key = some value →
    after.table.get? key = some value
  right : ∀ {key : Key} {value : Value}, after.table.get? key = some value →
    ∃ course, system.Evaluates key value course
  strategy_eq : after.table.strategy = before.strategy
  truncated_eq : after.table.truncated = before.truncated

omit [LawfulBEq Key] [BEq Value] in
/-- Settled values are right in a table that is sound. -/
theorem Sound.right {table : Table Key Value} (sound : system.Sound table)
    (stored : table.get? key = some value) : ∃ course, system.Evaluates key value course := by
  obtain ⟨below, follows, _⟩ := sound (Table.lookup_eq_known_iff.mpr (.inl stored))
  exact ⟨key :: below, below, follows, rfl⟩

omit [BEq Value] in
/-- The pending values become final. -/
theorem Descending.complete {course : List Key}
    (descending : system.Descending base [] course session)
    (evaluates : system.Evaluates root value course) :
    (∀ key : Key, session.table.commit.pending[key]? = none) ∧ system.Sound session.table.commit ∧
      system.Recurred base root value course { session with table := session.table.commit } := by
  have lookup_eq : ∀ {key : Key} {value : Value},
      session.table.commit.lookup key = .known value ↔ session.table.lookup key = .known value := by
    intro key value
    apply Table.lookup_commit
    intro entry found
    have isPending := descending.isPending_iff.mp (Option.isSome_of_eq_some found)
    refine ⟨?_, ?_⟩
    · rw [descending.settled_eq]
      exact isPending.2
    · cases phase : entry.phase with
      | running =>
          have onStack := descending.running_iff.mp ⟨entry.value, by rw [found, ← phase]⟩
          cases onStack
      | evaluated => rfl
      | carried => exact absurd phase (descending.current found)
  have soundAfter : system.Sound session.table.commit := by
    intro key value isKnown
    obtain ⟨below, follows, allKnown⟩ := descending.sound (lookup_eq.mp isKnown)
    refine ⟨below, follows, fun other member => ?_⟩
    obtain ⟨told, isKnown⟩ := allKnown other member
    exact ⟨told, lookup_eq.mpr isKnown⟩
  have stored (key : Key) : session.table.commit.get? key =
      ((session.table.pending[key]?).map Provisional.value).or (base.get? key) := by
    rw [Table.get?, Table.settled_commit, descending.settled_eq]
    rfl
  refine ⟨fun key => Table.pending_commit, soundAfter, evaluates, descending.passes_eq, ?_, ?_,
    soundAfter.right, descending.strategy_eq, descending.truncated_eq⟩
  · intro key
    change (session.table.commit.get? key).isSome ↔ _
    have isPending_iff : (session.table.pending[key]?).isSome ↔ _ := descending.isPending_iff
    rw [stored, Option.isSome_or, Option.isSome_map, Bool.or_eq_true, isPending_iff]
    cases base.get? key <;> simp
  · intro key value found
    change session.table.commit.get? key = _
    have notPending : session.table.pending[key]? = none := by
      by_contra isPending
      have unstored := (descending.isPending_iff.mp (Option.isSome_iff_ne_none.mpr isPending)).2
      cases unstored.symm.trans found
    rw [stored, notPending]
    exact found

omit [BEq Value] [LawfulBEq Key] in
/-- Before the first pass. -/
theorem Descending.first (idle : ∀ key : Key, base.pending[key]? = none)
    (sound : system.Sound base) : system.Descending base [] []
      { table := base.startPasses, context := (), passes := [[]] } where
  settled_eq := rfl
  strategy_eq := rfl
  truncated_eq := rfl
  notReentered := rfl
  current found := by simp [Table.startPasses, idle] at found
  running_iff := by simp [Table.Running, Table.startPasses, idle]
  isPending_iff := by simp [Table.IsPending, Table.startPasses, idle]
  passes_eq := rfl
  sound := sound

omit [BEq Value] in
/-- A call for a stored value evaluates nothing. -/
theorem recurred_of_settled (idle : ∀ key : Key, session.table.pending[key]? = none)
    (sound : system.Sound session.table)
    (isKnown : session.table.lookup root = .known value) :
    ∃ course, system.Recurred session.table root value course { session with passes := [[]] } := by
  have stored : ∀ {key : Key} {value : Value}, session.table.lookup key = .known value →
      session.table.get? key = some value := by
    intro key value isKnown
    rcases Table.lookup_eq_known_iff.mp isKnown with settled | ⟨_, evaluated⟩
    · exact settled
    · cases (idle key).symm.trans evaluated
  obtain ⟨below, follows, allKnown⟩ := sound isKnown
  have allStored : ∀ key ∈ root :: below, ∃ value, session.table.get? key = some value := by
    intro key member
    rcases List.mem_cons.mp member with rfl | member
    · exact ⟨value, stored isKnown⟩
    · obtain ⟨told, isKnown⟩ := allKnown key member
      exact ⟨told, stored isKnown⟩
  refine ⟨root :: below, ⟨below, follows, rfl⟩, ?_, ?_, fun found => found, sound.right, rfl, rfl⟩
  · have nothingNew : session.table.fresh ([] ++ root :: below) = session.table.fresh [] := by
      apply Table.fresh_append_of_old
      intro key member unstored
      obtain ⟨value, found⟩ := allStored key member
      cases unstored.symm.trans found
    rw [List.nil_append] at nothingNew
    rw [nothingNew]
    rfl
  · intro key
    rw [or_iff_left_of_imp]
    intro member
    obtain ⟨value, found⟩ := allStored key member
    exact Option.isSome_of_eq_some found

/-- A call that answers is plain recursion. -/
theorem ensures_call (acyclic : system.Acyclic)
    (idle : ∀ key : Key, session.table.pending[key]? = none) (sound : system.Sound session.table) :
    Ensures (system.call fuel root) session fun value after =>
      (∀ key : Key, after.table.pending[key]? = none) ∧ system.Sound after.table ∧
        ∃ course, system.Recurred session.table root value course after := by
  unfold call
  rw [ensures_bind, ensures_modify]
  cases fuel with
  | zero => exact ensures_throw _ _
  | succ fuel =>
      rcases session.table.lookup_cases root with ⟨value, _, isKnown⟩ | ⟨_, value, running, _⟩ |
        ⟨_, value, evaluated, _⟩ | ⟨_, _, isUnknown⟩
      · apply (Recursion.ensures_solve_known isKnown).mpr
        exact ⟨idle, sound, recurred_of_settled idle sound isKnown⟩
      · cases (idle root).symm.trans running
      · cases (idle root).symm.trans evaluated
      · apply (Recursion.ensures_solve_outermost isUnknown (Table.not_inUse_iff.mpr idle)).mpr
        apply (ensures_pure _ _).mpr
        have started := (Descending.first idle sound).start isUnknown (system.bottom root)
        apply Recursion.ensures_passes_of_stable
        apply (ensures_pass acyclic (nested acyclic fuel) started nofun).mono
        intro value after answered
        obtain ⟨course, evaluates, descending⟩ := answered
        obtain ⟨idle, sound, recurred⟩ := descending.complete evaluates
        exact ⟨descending.stable, idle, sound, course, recurred⟩

/-- A call answers where plain recursion ends. -/
theorem yields_call [DecidableEq Key] {course : List Key} (acyclic : system.Acyclic)
    (idle : ∀ key : Key, session.table.pending[key]? = none) (sound : system.Sound session.table)
    (evaluates : system.Evaluates root value course) (enough : course.toFinset.card ≤ fuel) :
    (system.call fuel root).Yields session fun _ _ => True := by
  unfold call
  rw [yields_bind, yields_modify]
  cases fuel with
  | zero =>
      obtain ⟨below, _, rfl⟩ := evaluates
      simp at enough
  | succ fuel =>
      rcases session.table.lookup_cases root with ⟨value, _, isKnown⟩ | ⟨_, value, running, _⟩ |
        ⟨_, value, evaluated, _⟩ | ⟨_, _, isUnknown⟩
      · exact (Recursion.yields_solve_known isKnown).mpr trivial
      · cases (idle root).symm.trans running
      · cases (idle root).symm.trans evaluated
      · apply (Recursion.yields_solve_outermost isUnknown (Table.not_inUse_iff.mpr idle)).mpr
        apply (yields_pure _ _).mpr
        have started := (Descending.first idle sound).start isUnknown (system.bottom root)
        apply Recursion.yields_passes_of_stable
        have answered : (system.solution.pass fuel root (system.bottom root)).Yields _ _ :=
          yields_pass acyclic (answers acyclic fuel) started nofun evaluates enough
        apply (answered.and_ensures (ensures_pass acyclic (nested acyclic fuel) started nofun)).mono
        intro value after holds
        obtain ⟨_, course, _, descending⟩ := holds
        exact ⟨descending.stable, trivial⟩

/-- Between calls no evaluation is in progress, and what is stored is right. -/
theorem Left.idle_sound (acyclic : system.Acyclic) (left : system.Left session) :
    (∀ key : Key, session.table.pending[key]? = none) ∧ system.Sound session.table := by
  have empty (strategy : Strategy) :
      (∀ key : Key, (Table.empty strategy : Table Key Value).pending[key]? = none) ∧
        system.Sound (Table.empty strategy) := by
    refine ⟨Table.pending_empty strategy, ?_⟩
    intro key value isKnown
    simp [Table.lookup_eq_known_iff] at isKnown
  induction left with
  | start strategy => exact empty strategy
  | call _ run inductionHypothesis =>
      obtain ⟨idle, sound⟩ := inductionHypothesis
      obtain ⟨idle, sound, _⟩ := (ensures_call acyclic idle sound).of_ok run
      exact ⟨idle, sound⟩
  | clear _ cleared inductionHypothesis =>
      rw [Table.clear?_of_not_inUse (Table.not_inUse_iff.mpr inductionHypothesis.1)] at cleared
      cases cleared
      exact empty _

/-- Where no key depends on itself, a call is plain recursion, whatever calls came before.  It
answers if plain recursion ends, which it does where finitely many keys are needed; and then the
answer is that of plain recursion, and one pass enters the equations of the keys that plain recursion
enters and that are not stored yet, each once and where plain recursion enters it first. -/
theorem call_eq_recursion [DecidableEq Key] (acyclic : system.Acyclic)
    {before : Session Key Value Unit} (left : system.Left before) (root : Key) :
    (Set.Finite (Relation.ReflTransGen system.DependsOn root) →
      ∃ value course, system.Evaluates root value course) ∧
    (∀ {value : Value} {course : List Key} {fuel : Nat}, system.Evaluates root value course →
      course.toFinset.card ≤ fuel → ∃ after, system.call fuel root before = .ok value after ∧
        system.Recurred before.table root value course after) ∧
    ∀ {fuel : Nat} {value : Value} {after : Session Key Value Unit},
      system.call fuel root before = .ok value after →
        ∃ course, system.Recurred before.table root value course after := by
  obtain ⟨idle, sound⟩ := left.idle_sound acyclic
  have recurs : ∀ {fuel : Nat} {value : Value} {after : Session Key Value Unit},
      system.call fuel root before = .ok value after →
        ∃ course, system.Recurred before.table root value course after := by
    intro fuel value after run
    exact ((ensures_call acyclic idle sound).of_ok run).2.2
  refine ⟨acyclic.exists_evaluates, ?_, recurs⟩
  intro value course fuel evaluates enough
  obtain ⟨value', after, run, _⟩ := yields_call acyclic idle sound evaluates enough
  obtain ⟨course', recurred⟩ := recurs run
  obtain ⟨below, follows, rfl⟩ := evaluates
  obtain ⟨below', follows', rfl⟩ := recurred.evaluates
  obtain ⟨rfl, rfl⟩ := follows.unique follows'
  exact ⟨after, run, recurred⟩

end Evaluation

end OpenSystem

/-- Hofstadter's recursion `G 0 = 0`, `G (n + 1) = n + 1 - G (G n)`, whose second question is the
answer to the first one. -/
def hofstadter : OpenSystem Nat Nat where
  bottom _ := 0
  equation
    | 0 => .answer 0
    | n + 1 => .ask n fun first => .ask first fun second => .answer (n + 1 - second)

/-- No value exceeds its key. -/
theorem hofstadter_le {key value : Nat} {course : List Nat}
    (follows : hofstadter.Follows (hofstadter.equation key) value course) : value ≤ key := by
  cases key with
  | zero =>
      cases follows
      exact le_rfl
  | succ n =>
      cases follows with
      | ask _ later =>
          cases later with
          | ask _ last =>
              cases last
              exact Nat.sub_le _ _

theorem hofstadter_acyclic : hofstadter.Acyclic := by
  have descends : ∀ {key other : Nat}, hofstadter.DependsOn key other → other < key := by
    intro key other depends
    cases key with
    | zero => cases depends
    | succ n =>
        cases depends with
        | here _ => exact Nat.lt_succ_self _
        | later asked comes =>
            cases comes with
            | here _ => exact Nat.lt_succ_of_le (hofstadter_le asked)
            | later _ comes => cases comes
  have below : ∀ {key other : Nat},
      Relation.TransGen hofstadter.DependsOn key other → other < key := by
    intro key other depends
    induction depends with
    | single depends => exact descends depends
    | tail _ depends inductionHypothesis => exact (descends depends).trans inductionHypothesis
  exact fun key depends => lt_irrefl key (below depends)

theorem hofstadter_evaluates_two : hofstadter.Evaluates 2 1 [2, 1, 0, 0, 1, 0, 0] := by
  have zero : hofstadter.Follows (hofstadter.equation 0) 0 [] := .answer 0
  have one : hofstadter.Follows (hofstadter.equation 1) 1 [0, 0] :=
    .ask zero (.ask zero (.answer 1))
  exact ⟨_, .ask one (.ask one (.answer 1)), rfl⟩

theorem call_eq_recursion_hofstadter : ∃ after,
    hofstadter.call 3 2 { table := .empty (.iterate 5), context := () } = .ok 1 after ∧
      after.passes = [[0, 1, 2]] ∧ after.table.get? 0 = some 0 := by
  have left : hofstadter.Left { table := .empty (.iterate 5), context := () } := .start (.iterate 5)
  obtain ⟨after, run, recurred⟩ := (OpenSystem.call_eq_recursion hofstadter_acyclic left 2).2.1
    hofstadter_evaluates_two (show _ ≤ 3 by decide)
  refine ⟨after, run, ?_, ?_⟩
  · rw [recurred.passes_eq]
    simp [Table.fresh, Table.get?]
    decide
  · obtain ⟨value, stored⟩ := Option.isSome_iff_exists.mp
      ((recurred.stored_iff 0).mpr (.inr (by decide)))
    obtain ⟨course, below, follows, _⟩ := recurred.right stored
    cases follows
    exact stored

end Residual.Memo
