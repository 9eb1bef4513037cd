import Residual.Proofs.Memo.Preservation

/-!
# What is settled lasts

A value is settled when the outermost call that found it is over, and never again: a key is evaluated
only if it is not settled, and nothing is settled while a call is in progress.  This takes no more
than that the equations leave the table to the function, so it holds of each of several tables that
are filled side by side.

What a call answers is settled under its key, and a settled key is answered without any change of the
state.
-/

set_option autoImplicit false

namespace Residual.Memo

variable {State Key Value : Type} [BEq Key] [Hashable Key]

namespace Table

variable {first second third base table after : Table Key Value} {key : Key} {value bottom : Value}

/-- Nothing settled is lost.  Nothing is settled while a call is in progress, which leaves the pending
keys pending and adds only keys that are not settled. -/
structure Persists (before after : Table Key Value) : Prop where
  idle : before.inUse = false → after.inUse = false ∧ before.Lasts after
  settled_eq : before.inUse = true → after.settled = before.settled
  pending : before.inUse = true → ∀ key, before.IsPending key → after.IsPending key
  fresh : before.inUse = true → ∀ key, after.IsPending key →
    before.IsPending key ∨ before.settled[key]? = none

theorem Persists.refl (table : Table Key Value) : table.Persists table :=
  ⟨fun idle => ⟨idle, .refl table⟩, fun _ => rfl, fun _ _ isPending => isPending,
    fun _ _ isPending => .inl isPending⟩

variable [LawfulBEq Key]

theorem exists_isPending (inUse : table.inUse = true) : ∃ key, table.IsPending key := by
  by_contra none
  have idle : table.inUse = false := by
    apply not_inUse_iff.mpr
    intro key
    by_contra some
    exact none ⟨key, Option.isSome_iff_ne_none.mpr some⟩
  simp [idle] at inUse

theorem Persists.inUse (persists : first.Persists second) (inUse : first.inUse = true) :
    second.inUse = true := by
  obtain ⟨key, isPending⟩ := exists_isPending inUse
  exact inUse_of_isPending (persists.pending inUse key isPending)

theorem Persists.trans (earlier : first.Persists second) (later : second.Persists third) :
    first.Persists third where
  idle idle := by
    obtain ⟨idle, lasts⟩ := earlier.idle idle
    obtain ⟨idle, lasts'⟩ := later.idle idle
    exact ⟨idle, lasts.trans lasts'⟩
  settled_eq inUse := (later.settled_eq (earlier.inUse inUse)).trans (earlier.settled_eq inUse)
  pending inUse key isPending :=
    later.pending (earlier.inUse inUse) key (earlier.pending inUse key isPending)
  fresh inUse key isPending := by
    rcases later.fresh (earlier.inUse inUse) key isPending with isPending | unsettled
    · exact earlier.fresh inUse key isPending
    · rw [earlier.settled_eq inUse] at unsettled
      exact .inr unsettled

omit [LawfulBEq Key] in
/-- The marks of a table do not matter. -/
theorem Persists.of_eq (settled_eq : after.settled = table.settled)
    (pending_eq : after.pending = table.pending) : table.Persists after := by
  have isPending_eq : after.IsPending = table.IsPending := by
    unfold IsPending
    rw [pending_eq]
  constructor
  · intro idle
    refine ⟨?_, fun key value found => settled_eq ▸ found⟩
    unfold Table.inUse at idle ⊢
    rwa [pending_eq]
  · exact fun _ => settled_eq
  · exact fun _ key isPending => isPending_eq ▸ isPending
  · exact fun _ key isPending => .inl (isPending_eq ▸ isPending)

/-- During a call that began with the table `base`. -/
structure Opens (base table : Table Key Value) (key : Key) : Prop where
  settled_eq : table.settled = base.settled
  fresh : ∀ key, table.IsPending key → base.settled[key]? = none
  isPending : table.IsPending key

theorem Opens.inUse (opens : base.Opens table key) : table.inUse = true :=
  inUse_of_isPending opens.isPending

theorem Opens.persist (opens : base.Opens table key) (persists : table.Persists after) :
    base.Opens after key where
  settled_eq := (persists.settled_eq opens.inUse).trans opens.settled_eq
  fresh other isPending := by
    rcases persists.fresh opens.inUse other isPending with isPending | unsettled
    · exact opens.fresh other isPending
    · rwa [opens.settled_eq] at unsettled
  isPending := persists.pending opens.inUse key opens.isPending

theorem Opens.restart (opens : base.Opens table key) : base.Opens (table.restart key) key where
  settled_eq := opens.settled_eq
  fresh other isPending := opens.fresh other (isPending_restart.mp isPending)
  isPending := isPending_restart.mpr opens.isPending

/-- When the call is over, what was settled before still is. -/
theorem Opens.commit (opens : base.Opens table key) :
    table.commit.inUse = false ∧ base.Lasts table.commit := by
  refine ⟨not_inUse_iff.mpr fun _ => pending_commit, fun other value found => ?_⟩
  have unknown : table.pending[other]? = none := by
    by_contra isPending
    have unsettled := opens.fresh other (Option.isSome_iff_ne_none.mpr isPending)
    simp [unsettled] at found
  rw [settled_commit, unknown, opens.settled_eq]
  exact found

/-- An outermost evaluation starts. -/
theorem opens_start (idle : table.inUse = false) (unsettled : table.settled[key]? = none) :
    table.Opens (table.startPasses.start key bottom) key where
  settled_eq := rfl
  fresh other isPending := by
    rcases isPending_start.mp isPending with rfl | isPending
    · exact unsettled
    · have unknown := not_inUse_iff.mp idle other
      simp [IsPending, startPasses, unknown] at isPending
  isPending := isPending_start.mpr (.inl rfl)

/-- A nested evaluation starts. -/
theorem persists_start (inUse : table.inUse = true) (unsettled : table.settled[key]? = none) :
    table.Persists (table.start key bottom) where
  idle idle := by simp [idle] at inUse
  settled_eq _ := rfl
  pending _ other isPending := isPending_start.mpr (.inr isPending)
  fresh _ other isPending := by
    rcases isPending_start.mp isPending with rfl | isPending
    · exact .inr unsettled
    · exact .inl isPending

/-- An evaluation ends. -/
theorem persists_record [BEq Value] (isPending : table.IsPending key) :
    table.Persists (table.record key value) where
  idle idle := by
    rw [inUse_of_isPending isPending] at idle
    cases idle
  settled_eq _ := rfl
  pending _ other isPending := isPending_record.mpr (.inr isPending)
  fresh _ other isPending' := by
    rcases isPending_record.mp isPending' with rfl | isPending'
    · exact .inl isPending
    · exact .inl isPending'

end Table

namespace Recursion

variable {function : Recursion State Key Value} {others : State → State → Prop}

/-- What is settled lasts, and everything else is related. -/
def Persists (function : Recursion State Key Value) (others : State → State → Prop)
    (before after : State) : Prop :=
  (function.table before).Persists (function.table after) ∧ others before after

/-- The parts of a memoized function leave the table to it, and keep a relation, which can be
composed. -/
structure Confined (function : Recursion State Key Value) (others : State → State → Prop) : Prop where
  refl : ∀ state, others state state
  trans : ∀ ⦃first second third⦄, others first second → others second third → others first third
  table_modify : ∀ f state,
    function.table (function.modifyTable f state) = f (function.table state)
  modifyTable : ∀ f state, others state (function.modifyTable f state)
  noteRepeated : ∀ state, function.table (function.noteRepeated state) = function.table state ∧
    others state (function.noteRepeated state)
  noteExhausted : ∀ passes state,
    function.table (function.noteExhausted passes state) = function.table state ∧
      others state (function.noteExhausted passes state)
  bottom : ∀ key, Keeps (fun before after =>
    function.table after = function.table before ∧ others before after) (function.bottom key)
  step : ∀ {recur}, (∀ key, Keeps (function.Persists others) (recur key)) →
    ∀ key, Keeps (function.Persists others) (function.step recur key)
  finish : ∀ key bottom value, Keeps (fun before after =>
    function.table after = function.table before ∧ others before after)
    (function.finish key bottom value)

namespace Confined

variable [LawfulBEq Key] [BEq Value] (confined : function.Confined others)
  {fuel : Nat} {key : Key} {bottom : Value} {state : State}

include confined

/-- One evaluation of a key that is pending. -/
theorem ensures_pass (keeps : ∀ key, Keeps (function.Persists others) (function.solve fuel key))
    (isPending : (function.table state).IsPending key) :
    Ensures (function.pass fuel key bottom) state fun value after =>
      function.Persists others state after ∧
        (function.table after).pending[key]? = some ⟨value, .evaluated⟩ := by
  have inUse := Table.inUse_of_isPending isPending
  unfold pass
  apply (ensures_bind _ _ _).mpr
  apply (confined.step keeps key state).mono
  rintro value stepped ⟨persists, related⟩
  apply (ensures_bind _ _ _).mpr
  apply (confined.finish key bottom value stepped).mono
  rintro value finished ⟨isTable, related'⟩
  simp only [ensures_bind, ensures_modify, ensures_pure, confined.table_modify]
  rw [Persists, confined.table_modify, isTable]
  refine ⟨⟨?_, ?_⟩, Table.pending_record_self⟩
  · exact persists.trans (Table.persists_record (persists.pending inUse key isPending))
  · exact confined.trans related (confined.trans related' (confined.modifyTable _ finished))

/-- All passes of an outermost call, which began with the table `base`. -/
theorem ensures_passes {base : Table Key Value}
    (keeps : ∀ key, Keeps (function.Persists others) (function.solve fuel key))
    (opens : base.Opens (function.table state) key) (repetitions : Nat) :
    Ensures (function.passes key (function.pass fuel key bottom) repetitions) state
      fun value after => ((function.table after).inUse = false ∧
        base.Lasts (function.table after)) ∧ others state after ∧
          (function.table after).settled[key]? = some value := by
  have settles : ∀ {table : Table Key Value} {value},
      table.pending[key]? = some ⟨value, .evaluated⟩ →
      table.commit.settled[key]? = some value := by
    intro table value found
    rw [Table.settled_commit, found]
    rfl
  induction repetitions generalizing state with
  | zero =>
      rw [passes, ensures_bind]
      apply (confined.ensures_pass keeps opens.isPending).mono
      rintro value after ⟨⟨persists, related⟩, evaluated⟩
      have opens := opens.persist persists
      rw [ensures_bind, ensures_get]
      split
      · obtain ⟨isTable, related'⟩ :=
          confined.noteExhausted (function.table after).passes.length after
        simp only [giveUp, ensures_bind, ensures_modify, ensures_pure, confined.table_modify, isTable]
        refine ⟨opens.commit, ?_, settles evaluated⟩
        exact confined.trans related (confined.trans related' (confined.modifyTable _ _))
      · simp only [ensures_bind, ensures_modify, ensures_pure, confined.table_modify]
        exact ⟨opens.commit, confined.trans related (confined.modifyTable _ _), settles evaluated⟩
  | succ repetitions inductionHypothesis =>
      rw [passes, ensures_bind]
      apply (confined.ensures_pass keeps opens.isPending).mono
      rintro value after ⟨⟨persists, related⟩, evaluated⟩
      have opens := opens.persist persists
      rw [ensures_bind, ensures_get]
      split
      · simp only [ensures_bind, ensures_modify]
        obtain ⟨isTable, related'⟩ :=
          confined.noteRepeated (function.modifyTable (Table.restart key) after)
        rw [confined.table_modify] at isTable
        apply (inductionHypothesis (isTable ▸ opens.restart)).mono
        rintro value ended ⟨lasts, related'', settled⟩
        refine ⟨lasts, ?_, settled⟩
        exact confined.trans related (confined.trans (confined.modifyTable _ _)
          (confined.trans related' related''))
      · simp only [ensures_bind, ensures_modify, ensures_pure, confined.table_modify]
        exact ⟨opens.commit, confined.trans related (confined.modifyTable _ _), settles evaluated⟩

/-- What is settled lasts through every evaluation, which settles its answer unless it is nested. -/
theorem ensures_solve (fuel : Nat) (key : Key) (state : State) :
    Ensures (function.solve fuel key) state fun value after =>
      function.Persists others state after ∧ ((function.table state).inUse = false →
        (function.table after).settled[key]? = some value) := by
  induction fuel generalizing key state with
  | zero => exact ensures_throw _ _
  | succ fuel inductionHypothesis =>
      have keeps : ∀ key, Keeps (function.Persists others) (function.solve fuel key) :=
        fun key state => (inductionHypothesis key state).mono fun _ _ holds => holds.1
      rcases (function.table state).lookup_cases key with ⟨value, settled, isKnown⟩ |
        ⟨_, value, running, isReentrant⟩ | ⟨_, value, evaluated, isKnown⟩ |
        ⟨unsettled, _, isUnknown⟩
      · apply (ensures_solve_known isKnown).mpr
        exact ⟨⟨.refl _, confined.refl state⟩, fun _ => settled⟩
      · apply (ensures_solve_reentrant isReentrant).mpr
        refine ⟨⟨?_, confined.modifyTable _ state⟩, fun idle => ?_⟩
        · rw [confined.table_modify]
          exact .of_eq rfl rfl
        · simp [Table.not_inUse_iff.mp idle key] at running
      · apply (ensures_solve_known isKnown).mpr
        refine ⟨⟨.refl _, confined.refl state⟩, fun idle => ?_⟩
        simp [Table.not_inUse_iff.mp idle key] at evaluated
      · cases inUse : (function.table state).inUse with
        | true =>
            apply (ensures_solve_nested isUnknown inUse).mpr
            apply (confined.bottom key state).mono
            rintro bottom between ⟨isTable, related⟩
            have started : (function.table state).Persists ((function.table state).start key bottom) :=
              Table.persists_start inUse unsettled
            have isPending : (function.table (function.modifyTable
                (Table.start key bottom) between)).IsPending key := by
              rw [confined.table_modify]
              exact Table.isPending_start.mpr (.inl rfl)
            apply (confined.ensures_pass keeps isPending).mono
            rintro value after ⟨⟨persists, related'⟩, _⟩
            rw [confined.table_modify, isTable] at persists
            refine ⟨⟨started.trans persists, ?_⟩, by simp⟩
            exact confined.trans related (confined.trans (confined.modifyTable _ _) related')
        | false =>
            apply (ensures_solve_outermost isUnknown inUse).mpr
            apply (confined.bottom key state).mono
            rintro bottom between ⟨isTable, related⟩
            have opens : (function.table state).Opens (function.table (function.modifyTable
                (fun table => table.startPasses.start key bottom) between)) key := by
              rw [confined.table_modify, isTable]
              exact Table.opens_start inUse unsettled
            apply (confined.ensures_passes keeps opens _).mono
            rintro value after ⟨⟨idle, lasts⟩, related', settled⟩
            have persists : (function.table state).Persists (function.table after) :=
              ⟨fun _ => ⟨idle, lasts⟩, by simp [inUse], by simp [inUse], by simp [inUse]⟩
            refine ⟨⟨persists, ?_⟩, fun _ => settled⟩
            exact confined.trans related (confined.trans (confined.modifyTable _ _) related')

/-- What is settled lasts through every evaluation. -/
theorem keeps_solve (fuel : Nat) (key : Key) :
    Keeps (function.Persists others) (function.solve fuel key) :=
  fun state => (confined.ensures_solve fuel key state).mono fun _ _ holds => holds.1

end Confined

end Recursion

end Residual.Memo
