import Residual.Proofs.Memo.Preservation
import Residual.Proofs.Memo.Readings

/-!
# What a call visits

An outermost call makes at most as many passes as its strategy allows, and in each of them it
evaluates a key at most once, whatever the equations do.  Which keys these are follows from what an
equation asks for: `May` says which key may be visited after others, and a function that `Tours`
asks for no other ones.

Nothing has to be known about values, and nothing about fuel: the statements here are about calls
that answer.

## Main statement

* `Tours.ensures_solve`: the keys that an outermost call visits, pass by pass.
-/

set_option autoImplicit false

namespace Residual.Memo

variable {State Key Value : Type}

/-- Each key may be visited after those before it.  The last one is at the head. -/
inductive Trail (May : List Key → Key → Prop) : List Key → Prop where
  | nil : Trail May []
  | visit {earlier : List Key} {key : Key} : Trail May earlier → May earlier key →
      Trail May (key :: earlier)

theorem Trail.forall_mem {May : List Key → Key → Prop} {Allowed : Key → Prop} {pass : List Key}
    (trail : Trail May pass) (allowed : ∀ earlier key, May earlier key → Allowed key) :
    ∀ key ∈ pass, Allowed key := by
  induction trail with
  | nil => exact nofun
  | visit _ may inductionHypothesis =>
      exact List.forall_mem_cons.mpr ⟨allowed _ _ may, inductionHypothesis⟩

variable [BEq Key] [Hashable Key]

namespace Table

variable {May : List Key → Key → Prop} {base table after : Table Key Value}
  {earlier : List (List Key)} {key root : Key} {value bottom : Value}

/-- What an outermost call makes of the table `before`: in at most `limit` passes, each of which is
`Allowed`, it visits keys that were not known, and knows them then. -/
structure Visits (limit : Nat) (Allowed : List Key → Prop) (before after : Table Key Value) :
    Prop where
  length_le : after.passes.length ≤ limit
  nodup : ∀ pass ∈ after.passes, pass.Nodup
  allowed : ∀ pass ∈ after.passes, Allowed pass
  fresh : ∀ pass ∈ after.passes, ∀ key ∈ pass, before.get? key = none
  known_iff : ∀ key, (after.get? key).isSome ↔
    (before.get? key).isSome ∨ ∃ pass ∈ after.passes, key ∈ pass

/-- During an outermost call that found the table `base`, after some passes. -/
structure Touring (May : List Key → Key → Prop) (base : Table Key Value) (earlier : List (List Key))
    (table : Table Key Value) : Prop where
  settled_eq : table.settled = base.settled
  earlier_eq : table.earlier = earlier
  visited_ne_nil : table.visited ≠ []
  fresh : ∀ {key}, table.IsPending key → base.settled[key]? = none
  met_iff : ∀ {key}, table.Met key ↔ key ∈ table.visited
  pending_iff : ∀ {key}, table.IsPending key ↔ ∃ pass ∈ table.passes, key ∈ pass
  nodup : table.visited.Nodup
  trail : Trail May table.visited

namespace Touring

variable (touring : base.Touring May earlier table)

include touring

/-- The marks of a table do not matter. -/
theorem congr (settled_eq : after.settled = table.settled) (pending_eq : after.pending = table.pending)
    (visited_eq : after.visited = table.visited) (earlier_eq : after.earlier = table.earlier) :
    base.Touring May earlier after := by
  obtain ⟨_, _, pending, _, _, _, visited, earlier'⟩ := after
  cases settled_eq
  cases pending_eq
  cases visited_eq
  cases earlier_eq
  obtain ⟨settled_eq, earlier_eq, visited_ne_nil, fresh, met_iff, pending_iff, nodup, trail⟩ := touring
  exact ⟨settled_eq, earlier_eq, visited_ne_nil, fresh, met_iff, pending_iff, nodup, trail⟩

variable [LawfulBEq Key]

theorem inUse : table.inUse = true := by
  obtain ⟨key, isVisited⟩ := List.exists_mem_of_ne_nil _ touring.visited_ne_nil
  exact inUse_of_isPending (touring.met_iff.mpr isVisited).isPending

/-- A key is visited that is not known. -/
theorem start (isUnknown : table.lookup key = .unknown) (may : May table.visited key)
    (bottom : Value) : base.Touring May earlier (table.start key bottom) := by
  obtain ⟨unsettled, unmet⟩ := lookup_eq_unknown_iff.mp isUnknown
  constructor
  · exact touring.settled_eq
  · exact touring.earlier_eq
  · exact List.cons_ne_nil _ _
  · intro other isPending
    rcases isPending_start.mp isPending with rfl | isPending
    · rwa [← touring.settled_eq]
    · exact touring.fresh isPending
  · intro other
    rw [met_start, touring.met_iff]
    exact List.mem_cons.symm
  · intro other
    rw [isPending_start, touring.pending_iff]
    simp [passes, Table.start, or_assoc]
  · exact List.nodup_cons.mpr ⟨fun isVisited => unmet (touring.met_iff.mpr isVisited), touring.nodup⟩
  · exact .visit touring.trail may

/-- The evaluation of a visited key ends. -/
theorem record [BEq Value] (isVisited : key ∈ table.visited) (value : Value) :
    base.Touring May earlier (table.record key value) := by
  have met := touring.met_iff.mpr isVisited
  constructor
  · exact touring.settled_eq
  · exact touring.earlier_eq
  · exact touring.visited_ne_nil
  · intro other isPending
    rcases isPending_record.mp isPending with rfl | isPending
    · exact touring.fresh met.isPending
    · exact touring.fresh isPending
  · intro other
    rw [met_record, or_iff_right_of_imp (by rintro rfl; exact met)]
    exact touring.met_iff
  · intro other
    rw [isPending_record, or_iff_right_of_imp (by rintro rfl; exact met.isPending)]
    exact touring.pending_iff
  · exact touring.nodup
  · exact touring.trail

/-- Another pass starts at its outermost key. -/
theorem restart (isVisited : root ∈ table.visited) (may : May [] root) :
    base.Touring May (table.visited :: earlier) (table.restart root) := by
  have isPending := (touring.met_iff.mpr isVisited).isPending
  constructor
  · exact touring.settled_eq
  · exact congrArg (table.visited :: ·) touring.earlier_eq
  · exact List.cons_ne_nil _ _
  · intro other isPending'
    exact touring.fresh (isPending_restart.mp isPending')
  · intro other
    rw [met_restart isPending]
    exact List.mem_singleton.symm
  · intro other
    rw [isPending_restart, touring.pending_iff]
    change _ ↔ ∃ pass ∈ [root] :: table.passes, other ∈ pass
    rw [List.exists_mem_cons_iff, or_iff_right_of_imp]
    intro isRoot
    rw [List.mem_singleton.mp isRoot]
    exact ⟨table.visited, List.mem_cons_self, isVisited⟩
  · exact List.nodup_singleton root
  · exact .visit .nil may

/-- The call is over: what was visited is known. -/
theorem commit (nodup : ∀ pass ∈ earlier, pass.Nodup) (trail : ∀ pass ∈ earlier, Trail May pass)
    (allowed : earlier.length ≤ base.strategy.repetitions)
    (settled_eq : after.settled = table.commit.settled) (passes_eq : after.passes = table.passes) :
    base.Visits (base.strategy.repetitions + 1) (Trail May) after := by
  have passes_cons : after.passes = table.visited :: earlier := by
    rw [passes_eq, passes, touring.earlier_eq]
  refine ⟨?_, ?_, ?_, ?_, ?_⟩
  · rw [passes_cons, List.length_cons]
    omega
  · rw [passes_cons]
    exact List.forall_mem_cons.mpr ⟨touring.nodup, nodup⟩
  · rw [passes_cons]
    exact List.forall_mem_cons.mpr ⟨touring.trail, trail⟩
  · intro pass isPass key member
    rw [passes_eq] at isPass
    exact touring.fresh (touring.pending_iff.mpr ⟨pass, isPass, member⟩)
  · intro key
    rw [passes_eq, ← touring.pending_iff, get?, get?, settled_eq, settled_commit, touring.settled_eq]
    unfold IsPending
    cases table.pending[key]? <;> simp

end Touring

/-- An outermost call starts. -/
theorem touring_start [LawfulBEq Key]
    (idle : ∀ key : Key, table.pending[key]? = none) (unsettled : table.settled[root]? = none)
    (may : May [] root) (bottom : Value) :
    table.Touring May [] (table.startPasses.start root bottom) := by
  have noPending : ∀ other : Key, ¬ table.startPasses.IsPending other := by
    intro other isPending
    simp [IsPending, startPasses, idle] at isPending
  constructor
  · rfl
  · rfl
  · exact List.cons_ne_nil _ _
  · intro other isPending
    rcases isPending_start.mp isPending with rfl | isPending
    · exact unsettled
    · exact absurd isPending (noPending other)
  · intro other
    rw [met_start, or_iff_left fun met => noPending other met.isPending]
    exact List.mem_singleton.symm
  · intro other
    rw [isPending_start, or_iff_left (noPending other)]
    simp [passes, Table.start, startPasses]
  · exact List.nodup_singleton root
  · exact .visit .nil may

end Table

/-! ## Functions that visit keys -/

omit [BEq Key] [Hashable Key] in
/-- A reading is answered in steady states, as far as the keys that it asks for are. -/
theorem Reading.Asks.ensures_run {Answer : Type} {Allowed : Key → Prop} {steady : State → Prop}
    {recur : Key → Eval State Value} {reading : Reading Key Value Answer} {state : State}
    (asks : reading.Asks Allowed)
    (recurs : ∀ {key state}, steady state → Allowed key →
      Ensures (recur key) state fun _ after => steady after) (isSteady : steady state) :
    Ensures (reading.run recur) state fun _ after => steady after := by
  induction asks generalizing state with
  | answer result => exact (ensures_pure _ _).mpr isSteady
  | ask allowed _ inductionHypothesis =>
      refine (ensures_bind _ _ _).mpr ((recurs isSteady allowed).mono ?_)
      exact fun value after isSteady => inductionHypothesis value isSteady

namespace Recursion

/-- A function that asks for keys as `May` says, in states that are `Within` some bounds.  A key has to
be `Ready` when it is asked for, and `Fresh` is what is known of provisional values. -/
structure Tours (function : Recursion State Key Value) (May : List Key → Key → Prop)
    (Within : State → Prop) (Ready : State → Key → Prop) (Fresh : Value → Prop) : Prop where
  table_modify : ∀ f state,
    function.table (function.modifyTable f state) = f (function.table state)
  modifyTable : ∀ f {state}, Within state → Within (function.modifyTable f state) ∧
    ∀ {key}, Ready state key → Ready (function.modifyTable f state) key
  noteRepeated : ∀ {state}, Within state → Within (function.noteRepeated state) ∧
    function.table (function.noteRepeated state) = function.table state
  noteExhausted : ∀ passes state,
    function.table (function.noteExhausted passes state) = function.table state
  bottom : ∀ {state key}, Within state → Ready state key →
    Ensures (function.bottom key) state fun bottom after => Fresh bottom ∧ Within after ∧
      Ready after key ∧ function.table after = function.table state
  step : ∀ {recur : Key → Eval State Value} {Steady : State → Prop},
    (∀ {state after}, Steady state → function.table after = function.table state →
      Steady after) →
    (∀ {other state}, Within state → Steady state → Ready state other →
      May (function.table state).visited other →
      Ensures (recur other) state fun _ after => Within after ∧ Steady after) →
    ∀ {key state}, Within state → Steady state → Ready state key →
      (function.table state).visited.head? = some key →
      Ensures (function.step recur key) state fun _ after => Within after ∧ Steady after
  finish : ∀ {state key bottom value}, Within state → Fresh bottom →
    Ensures (function.finish key bottom value) state fun _ after => Within after ∧
      function.table after = function.table state

/-- A call for `root` had its answer in the table, or it visited keys in at most `limit` passes, each
of which is `Allowed`. -/
def Visits (function : Recursion State Key Value) (root : Key) (limit : Nat)
    (Allowed : List Key → Prop) (before after : State) : Prop :=
  (∃ value, (function.table before).get? root = some value) ∧ after = before ∨
    (function.table before).Visits limit Allowed (function.table after)

theorem Visits.mono {function : Recursion State Key Value} {root : Key} {limit limit' : Nat}
    {Allowed Allowed' : List Key → Prop} {before after : State}
    (visits : function.Visits root limit Allowed before after) (le : limit ≤ limit')
    (weaken : ∀ pass, pass.Nodup → Allowed pass → Allowed' pass) :
    function.Visits root limit' Allowed' before after := by
  refine visits.imp_right fun visits => ?_
  refine ⟨visits.length_le.trans le, visits.nodup, ?_, visits.fresh, visits.known_iff⟩
  exact fun pass isPass => weaken pass (visits.nodup pass isPass) (visits.allowed pass isPass)

namespace Tours

variable {function : Recursion State Key Value} {May : List Key → Key → Prop} {Within : State → Prop}
  {Ready : State → Key → Prop} {Fresh : Value → Prop} {base : Table Key Value}
  {earlier : List (List Key)} {key root : Key} {bottom : Value} {state : State} {fuel : Nat}

/-- A call during another one for which the table `base` was found. -/
def Nested [BEq Value] (function : Recursion State Key Value) (May : List Key → Key → Prop)
    (Within : State → Prop) (Ready : State → Key → Prop) (base : Table Key Value)
    (earlier : List (List Key)) (fuel : Nat) : Prop :=
  ∀ {key state}, Within state → base.Touring May earlier (function.table state) →
    Ready state key → May (function.table state).visited key →
    Ensures (function.solve fuel key) state fun _ after => Within after ∧
      base.Touring May earlier (function.table after) ∧
      (function.table state).visited <:+ (function.table after).visited

variable [LawfulBEq Key] [BEq Value]
  (tours : function.Tours May Within Ready Fresh)

include tours

/-- The evaluation of a key that is visited. -/
theorem ensures_pass (nested : Nested function May Within Ready base earlier fuel)
    (within : Within state) (touring : base.Touring May earlier (function.table state))
    (ready : Ready state key) (isHead : (function.table state).visited.head? = some key)
    (fresh : Fresh bottom) :
    Ensures (function.pass fuel key bottom) state fun _ after => Within after ∧
      base.Touring May earlier (function.table after) ∧
      (function.table state).visited <:+ (function.table after).visited := by
  let Steady : State → Prop := fun after => base.Touring May earlier (function.table after) ∧
    (function.table state).visited <:+ (function.table after).visited
  have steady : ∀ {between after}, Steady between →
      function.table after = function.table between → Steady after := by
    rintro between after ⟨touring, more⟩ same
    exact ⟨same ▸ touring, same ▸ more⟩
  have recurs : ∀ {other between}, Within between → Steady between → Ready between other →
      May (function.table between).visited other →
      Ensures (function.solve fuel other) between fun _ after => Within after ∧ Steady after := by
    intro other between within ⟨touring, more⟩ ready may
    refine (nested within touring ready may).mono fun _ after ⟨within, touring, more'⟩ => ?_
    exact ⟨within, touring, more.trans more'⟩
  unfold pass
  apply (ensures_bind _ _ _).mpr
  apply (tours.step steady recurs within ⟨touring, List.suffix_rfl⟩ ready isHead).mono
  rintro value stepped ⟨within, touring, more⟩
  apply (ensures_bind _ _ _).mpr
  apply (tours.finish within fresh).mono
  rintro value finished ⟨within, isTable⟩
  have isVisited : key ∈ (function.table finished).visited := by
    rw [isTable]
    exact more.mem (List.mem_of_mem_head? isHead)
  rw [← isTable] at touring more
  simp only [ensures_bind, ensures_modify, ensures_pure, tours.table_modify]
  exact ⟨(tours.modifyTable _ within).1, touring.record isVisited value, more⟩

theorem nested (fuel : Nat) : Nested function May Within Ready base earlier fuel := by
  induction fuel with
  | zero => exact fun _ _ _ _ => ensures_throw _ _
  | succ fuel inductionHypothesis =>
      intro key state within touring ready may
      cases looked : (function.table state).lookup key with
      | known value => exact (ensures_solve_known looked).mpr ⟨within, touring, List.suffix_rfl⟩
      | reentrant value =>
          refine (ensures_solve_reentrant looked).mpr ⟨(tours.modifyTable _ within).1, ?_⟩
          rw [tours.table_modify]
          exact ⟨touring.congr rfl rfl rfl rfl, List.suffix_rfl⟩
      | unknown =>
          apply (ensures_solve_nested looked touring.inUse).mpr
          apply (tours.bottom within ready).mono
          rintro bottom between ⟨fresh, within, ready, isTable⟩
          obtain ⟨within, keeps⟩ := tours.modifyTable (Table.start key bottom) within
          have started : base.Touring May earlier
              (function.table (function.modifyTable (Table.start key bottom) between)) := by
            rw [tours.table_modify, isTable]
            exact touring.start looked may bottom
          have visited_eq : (function.table
              (function.modifyTable (Table.start key bottom) between)).visited =
                key :: (function.table state).visited := by
            rw [tours.table_modify, isTable]
            rfl
          apply (tours.ensures_pass inductionHypothesis within started (keeps ready)
            (by rw [visited_eq]; rfl) fresh).mono
          rintro value after ⟨within, touring, more⟩
          rw [visited_eq] at more
          exact ⟨within, touring, (List.suffix_cons _ _).trans more⟩

/-- All passes of an outermost call, one of which starts now. -/
theorem ensures_passes (ready : ∀ {state}, Within state → Ready state root) (may : May [] root)
    (within : Within state) (touring : base.Touring May earlier (function.table state))
    (isHead : (function.table state).visited.head? = some root) (fresh : Fresh bottom)
    (nodup : ∀ pass ∈ earlier, pass.Nodup) (trail : ∀ pass ∈ earlier, Trail May pass)
    {repetitions : Nat} (allowed : earlier.length + repetitions ≤ base.strategy.repetitions) :
    Ensures (function.passes root (function.pass fuel root bottom) repetitions) state
      fun _ after => base.Visits (base.strategy.repetitions + 1) (Trail May)
        (function.table after) := by
  induction repetitions generalizing state earlier with
  | zero =>
      rw [passes, ensures_bind]
      apply (tours.ensures_pass (tours.nested fuel) within touring (ready within) isHead fresh).mono
      rintro value after ⟨within, touring, _⟩
      rw [ensures_bind, ensures_get]
      split
      · simp only [giveUp, ensures_bind, ensures_modify, ensures_pure, tours.table_modify,
          tours.noteExhausted]
        exact touring.commit nodup trail allowed rfl rfl
      · simp only [ensures_bind, ensures_modify, ensures_pure, tours.table_modify]
        exact touring.commit nodup trail allowed rfl rfl
  | succ repetitions inductionHypothesis =>
      rw [passes, ensures_bind]
      apply (tours.ensures_pass (tours.nested fuel) within touring (ready within) isHead fresh).mono
      rintro value after ⟨within, touring, more⟩
      have isVisited : root ∈ (function.table after).visited :=
        more.mem (List.mem_of_mem_head? isHead)
      rw [ensures_bind, ensures_get]
      split
      · simp only [ensures_bind, ensures_modify]
        obtain ⟨within, isTable⟩ :=
          tours.noteRepeated (tours.modifyTable (Table.restart root) within).1
        rw [tours.table_modify] at isTable
        apply inductionHypothesis within (isTable ▸ touring.restart isVisited may)
        · rw [isTable]
          rfl
        · exact List.forall_mem_cons.mpr ⟨touring.nodup, nodup⟩
        · exact List.forall_mem_cons.mpr ⟨touring.trail, trail⟩
        · rw [List.length_cons]
          omega
      · simp only [ensures_bind, ensures_modify, ensures_pure, tours.table_modify]
        exact touring.commit nodup trail (by omega) rfl rfl

/-- An outermost call visits each key once in a pass, if it is not known yet and may be visited, and
makes no more passes than its strategy allows. -/
theorem ensures_solve (ready : ∀ {state}, Within state → Ready state root) (may : May [] root)
    (within : Within state) (idle : ∀ key : Key, (function.table state).pending[key]? = none)
    (fuel : Nat) :
    Ensures (function.solve fuel root) state fun _ after =>
      function.Visits root ((function.table state).strategy.repetitions + 1) (Trail May) state
        after := by
  cases fuel with
  | zero => exact ensures_throw _ _
  | succ fuel =>
      rcases (function.table state).lookup_cases root with ⟨value, settled, isKnown⟩ |
        ⟨_, value, running, _⟩ | ⟨_, value, evaluated, _⟩ | ⟨unsettled, _, isUnknown⟩
      · exact (ensures_solve_known isKnown).mpr (.inl ⟨⟨value, settled⟩, rfl⟩)
      · simp [idle] at running
      · simp [idle] at evaluated
      · apply (ensures_solve_outermost isUnknown (Table.not_inUse_iff.mpr idle)).mpr
        apply (tours.bottom within (ready within)).mono
        rintro bottom between ⟨fresh, within, _, isTable⟩
        dsimp only
        have started : function.table (function.modifyTable
            (fun table => table.startPasses.start root bottom) between) =
              (function.table state).startPasses.start root bottom := by
          rw [tours.table_modify, isTable]
        have touring : (function.table state).Touring May [] (function.table (function.modifyTable
            (fun table => table.startPasses.start root bottom) between)) :=
          started ▸ Table.touring_start idle unsettled may bottom
        apply (tours.ensures_passes ready may (tours.modifyTable _ within).1 touring
          (by rw [started]; rfl) fresh nofun nofun (by rw [started]; exact (Nat.zero_add _).le)).mono
        exact fun _ _ visits => .inr visits

end Tours

end Recursion

end Residual.Memo
