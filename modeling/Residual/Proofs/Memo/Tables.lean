import Residual.Memo.Table

/-!
# What a table knows

The entries of a table after each of its operations, and how `lookup` reads them.
-/

set_option autoImplicit false

namespace Residual.Memo

theorem Strategy.iterates_of_repetitions_ne_zero {strategy : Strategy}
    (repeats : strategy.repetitions ≠ 0) : strategy.iterates = true := by
  cases strategy with
  | singlePass => exact absurd rfl repeats
  | iterate _ => rfl

namespace Table

variable {Key Value : Type} [BEq Key] [Hashable Key] {table : Table Key Value}
  {key other : Key} {value bottom : Value}

/-- The key was evaluated in this pass. -/
def Evaluated (table : Table Key Value) (key : Key) : Prop :=
  ∃ value, table.pending[key]? = some ⟨value, .evaluated⟩

/-- What is settled in one table is so in the other one. -/
def Lasts (before after : Table Key Value) : Prop :=
  ∀ (key : Key) (value : Value), before.settled[key]? = some value →
    after.settled[key]? = some value

theorem Lasts.refl (table : Table Key Value) : table.Lasts table :=
  fun _ _ found => found

theorem Lasts.trans {first second third : Table Key Value} (earlier : first.Lasts second)
    (later : second.Lasts third) : first.Lasts third :=
  fun key value found => later key value (earlier key value found)

/-- The settled entry and the pending entry of a key decide what is known about it. -/
theorem lookup_cases (table : Table Key Value) (key : Key) :
    (∃ value, table.settled[key]? = some value ∧ table.lookup key = .known value) ∨
    (table.settled[key]? = none ∧ ∃ value, table.pending[key]? = some ⟨value, .running⟩ ∧
      table.lookup key = .reentrant value) ∨
    (table.settled[key]? = none ∧ ∃ value, table.pending[key]? = some ⟨value, .evaluated⟩ ∧
      table.lookup key = .known value) ∨
    (table.settled[key]? = none ∧
      (∀ value phase, table.pending[key]? = some ⟨value, phase⟩ → phase = .carried) ∧
      table.lookup key = .unknown) := by
  unfold lookup
  cases settled : table.settled[key]? with
  | some value => exact .inl ⟨value, rfl, rfl⟩
  | none =>
      refine .inr ?_
      match table.pending[key]? with
      | some ⟨value, .running⟩ => exact .inl ⟨rfl, value, rfl, rfl⟩
      | some ⟨value, .evaluated⟩ => exact .inr (.inl ⟨rfl, value, rfl, rfl⟩)
      | some ⟨value, .carried⟩ => exact .inr (.inr ⟨rfl, by simp, rfl⟩)
      | none => exact .inr (.inr ⟨rfl, by simp, rfl⟩)

theorem lookup_eq_known_iff : table.lookup key = .known value ↔
    table.settled[key]? = some value ∨
      table.settled[key]? = none ∧ table.pending[key]? = some ⟨value, .evaluated⟩ := by
  unfold lookup
  cases table.settled[key]? with
  | some settled => simp
  | none =>
      match table.pending[key]? with
      | some ⟨_, .running⟩ | some ⟨_, .evaluated⟩ | some ⟨_, .carried⟩ | none => simp

theorem lookup_eq_known_congr {after : Table Key Value}
    (settled : after.settled[key]? = table.settled[key]?)
    (pending : after.pending[key]? = table.pending[key]?) :
    after.lookup key = .known value ↔ table.lookup key = .known value := by
  rw [lookup_eq_known_iff, lookup_eq_known_iff, settled, pending]

theorem not_inUse_iff [LawfulBEq Key] :
    table.inUse = false ↔ ∀ key : Key, table.pending[key]? = none := by
  unfold inUse
  rw [Bool.not_eq_false', Store.isEmpty_iff]

/-- Recording keeps the mark of earlier changes, and leaves it if the value is a new one. -/
theorem changed_record [BEq Value] [LawfulBEq Value] {earlier : Value} {phase : Phase}
    (was : table.pending[key]? = some ⟨earlier, phase⟩) :
    (table.record key value).changed = true ↔ table.changed = true ∨ value ≠ earlier := by
  unfold record
  simp only [was, Option.any_some, Bool.or_eq_true, Bool.not_eq_true', beq_eq_false_iff_ne]
  rw [ne_comm]

@[simp]
theorem settled_empty (strategy : Strategy) (key : Key) :
    (empty strategy : Table Key Value).settled[key]? = none :=
  Store.getElem?_empty

@[simp]
theorem pending_empty (strategy : Strategy) (key : Key) :
    (empty strategy : Table Key Value).pending[key]? = none :=
  Store.getElem?_empty

/-- What the evaluation of a key starts from: the value of an earlier pass, or else `bottom`. -/
def initial (table : Table Key Value) (key : Key) (bottom : Value) : Value :=
  ((table.pending[key]?).map Provisional.value).getD bottom

theorem initial_of_pending {entry : Provisional Value} (found : table.pending[key]? = some entry) :
    table.initial key bottom = entry.value := by
  unfold initial
  rw [found]
  rfl

theorem initial_of_getElem?_eq {after : Table Key Value}
    (same : after.pending[key]? = table.pending[key]?) :
    after.initial key bottom = table.initial key bottom := by
  unfold initial
  rw [same]

section Operations

variable [LawfulBEq Key]

theorem pending_start_self :
    (table.start key bottom).pending[key]? = some ⟨table.initial key bottom, .running⟩ := by
  unfold start initial
  rw [Store.getElem?_insert, if_pos BEq.rfl]
  cases table.pending[key]? <;> rfl

theorem pending_start_of_ne (distinct : other ≠ key) :
    (table.start key bottom).pending[other]? = table.pending[other]? := by
  unfold start
  rw [Store.getElem?_insert, if_neg (by simpa using distinct)]

theorem pending_record_self [BEq Value] :
    (table.record key value).pending[key]? = some ⟨value, .evaluated⟩ := by
  unfold record
  rw [Store.getElem?_insert, if_pos BEq.rfl]

theorem pending_record_of_ne [BEq Value] (distinct : other ≠ key) :
    (table.record key value).pending[other]? = table.pending[other]? := by
  unfold record
  rw [Store.getElem?_insert, if_neg (by simpa using distinct)]

theorem pending_restart_self :
    (table.restart key).pending[key]? =
      (table.pending[key]?).map fun earlier => { earlier with phase := .running } := by
  unfold restart
  rw [Store.getElem?_modify, if_pos BEq.rfl, Store.getElem?_map]
  cases table.pending[key]? <;> rfl

theorem pending_restart_of_ne (distinct : other ≠ key) :
    (table.restart key).pending[other]? =
      (table.pending[other]?).map fun earlier => { earlier with phase := .carried } := by
  unfold restart
  rw [Store.getElem?_modify, if_neg (by simpa using distinct), Store.getElem?_map]

/-- The next pass starts from the values of the last one. -/
theorem initial_restart (other : Key) :
    (table.restart other).initial key bottom = table.initial key bottom := by
  unfold initial
  by_cases same : key = other
  · subst same
    rw [pending_restart_self]
    cases table.pending[key]? <;> rfl
  · rw [pending_restart_of_ne same]
    cases table.pending[key]? <;> rfl

omit [LawfulBEq Key] in
theorem pending_commit : table.commit.pending[key]? = none := by
  exact Store.getElem?_empty

/-- Committing settles exactly the pending values. -/
theorem settled_commit :
    table.commit.settled[key]? =
      ((table.pending[key]?).map Provisional.value).or table.settled[key]? := by
  unfold commit
  rw [Store.getElem?_union, Store.getElem?_map]

/-- A key that is not known is not known either when its evaluation starts. -/
theorem lookup_start (isUnknown : table.lookup key = .unknown) :
    (table.start key bottom).lookup other = .known value ↔ table.lookup other = .known value := by
  by_cases same : other = key
  · subst same
    rcases table.lookup_cases other with ⟨_, _, isKnown⟩ | ⟨_, _, _, isKnown⟩ | ⟨_, _, _, isKnown⟩ |
      ⟨settled, _, _⟩
    · cases isUnknown.symm.trans isKnown
    · cases isUnknown.symm.trans isKnown
    · cases isUnknown.symm.trans isKnown
    · have settled : (table.start other bottom).settled[other]? = none := settled
      rw [isUnknown]
      simp [lookup_eq_known_iff, settled, pending_start_self]
  · exact lookup_eq_known_congr rfl (pending_start_of_ne same)

theorem lookup_record_self [BEq Value] (fresh : table.settled[key]? = none) :
    (table.record key value).lookup key = .known value := by
  have fresh : (table.record key value).settled[key]? = none := fresh
  simp only [lookup, fresh, pending_record_self]

theorem lookup_record_of_ne [BEq Value] {value' : Value} (distinct : other ≠ key) :
    (table.record key value').lookup other = .known value ↔ table.lookup other = .known value :=
  lookup_eq_known_congr rfl (pending_record_of_ne distinct)

/-- Committing keeps what is known if everything was evaluated. -/
theorem lookup_commit (evaluated : ∀ {entry}, table.pending[key]? = some entry →
    table.settled[key]? = none ∧ entry.phase = .evaluated) :
    table.commit.lookup key = .known value ↔ table.lookup key = .known value := by
  rw [lookup_eq_known_iff, lookup_eq_known_iff, settled_commit, pending_commit]
  cases found : table.pending[key]? with
  | none => simp
  | some entry =>
      obtain ⟨_, phase⟩ := entry
      obtain ⟨fresh, rfl⟩ := evaluated found
      simp [fresh]

end Operations

/-! ## Pending keys -/

/-- The key has a value that may still change. -/
def IsPending (table : Table Key Value) (key : Key) : Prop :=
  (table.pending[key]?).isSome

/-- The key is being evaluated. -/
def Running (table : Table Key Value) (key : Key) : Prop :=
  ∃ value, table.pending[key]? = some ⟨value, .running⟩

/-- The evaluation of the key has started in this pass. -/
def Met (table : Table Key Value) (key : Key) : Prop :=
  ∃ entry, table.pending[key]? = some entry ∧ entry.phase ≠ .carried

theorem Running.met (running : table.Running key) : table.Met key := by
  obtain ⟨value, found⟩ := running
  exact ⟨_, found, by simp⟩

theorem Met.isPending (met : table.Met key) : table.IsPending key := by
  obtain ⟨entry, found, _⟩ := met
  exact Option.isSome_of_eq_some found

/-- What is not known has not been met in this pass. -/
theorem lookup_eq_unknown_iff :
    table.lookup key = .unknown ↔ table.settled[key]? = none ∧ ¬table.Met key := by
  unfold lookup Met
  cases table.settled[key]? with
  | some settled => simp
  | none =>
      match table.pending[key]? with
      | some ⟨_, .running⟩ | some ⟨_, .evaluated⟩ | some ⟨_, .carried⟩ | none => simp

section Operations

variable [LawfulBEq Key]

theorem inUse_of_isPending (isPending : table.IsPending key) : table.inUse = true := by
  cases inUse : table.inUse with
  | true => rfl
  | false =>
      unfold IsPending at isPending
      rw [not_inUse_iff.mp inUse key] at isPending
      cases isPending

theorem isPending_start :
    (table.start key bottom).IsPending other ↔ other = key ∨ table.IsPending other := by
  unfold IsPending
  by_cases same : other = key
  · simp [same, pending_start_self]
  · simp [same, pending_start_of_ne same]

theorem running_start :
    (table.start key bottom).Running other ↔ other = key ∨ table.Running other := by
  unfold Running
  by_cases same : other = key
  · simp [same, pending_start_self]
  · simp [same, pending_start_of_ne same]

theorem met_start : (table.start key bottom).Met other ↔ other = key ∨ table.Met other := by
  unfold Met
  by_cases same : other = key
  · simp [same, pending_start_self]
  · simp [same, pending_start_of_ne same]

theorem isPending_record [BEq Value] :
    (table.record key value).IsPending other ↔ other = key ∨ table.IsPending other := by
  unfold IsPending
  by_cases same : other = key
  · simp [same, pending_record_self]
  · simp [same, pending_record_of_ne same]

theorem running_record [BEq Value] :
    (table.record key value).Running other ↔ other ≠ key ∧ table.Running other := by
  unfold Running
  by_cases same : other = key
  · simp [same, pending_record_self]
  · simp [same, pending_record_of_ne same]

theorem met_record [BEq Value] :
    (table.record key value).Met other ↔ other = key ∨ table.Met other := by
  unfold Met
  by_cases same : other = key
  · simp [same, pending_record_self]
  · simp [same, pending_record_of_ne same]

theorem isPending_restart : (table.restart key).IsPending other ↔ table.IsPending other := by
  unfold IsPending
  by_cases same : other = key
  · simp [same, pending_restart_self]
  · simp [pending_restart_of_ne same]

theorem running_restart (isPending : table.IsPending key) :
    (table.restart key).Running other ↔ other = key := by
  obtain ⟨entry, found⟩ := Option.isSome_iff_exists.mp isPending
  unfold Running
  by_cases same : other = key
  · simp [same, pending_restart_self, found]
  · simp [same, pending_restart_of_ne same]

theorem met_restart (isPending : table.IsPending key) :
    (table.restart key).Met other ↔ other = key := by
  obtain ⟨entry, found⟩ := Option.isSome_iff_exists.mp isPending
  unfold Met
  by_cases same : other = key
  · simp [same, pending_restart_self, found]
  · simp [same, pending_restart_of_ne same]

end Operations

/-- A table that is not in use can be cleared. -/
theorem clear?_of_not_inUse (notInUse : table.inUse = false) :
    table.clear? = some (empty table.strategy) := by
  simp [clear?, notInUse]

/-- No evaluation is in progress, and what is settled is right. -/
structure Records (table : Table Key Value) (Right : Key → Value → Prop) : Prop where
  idle : ∀ key : Key, table.pending[key]? = none
  right : ∀ {key : Key} {value : Value}, table.settled[key]? = some value → Right key value

theorem Records.empty (strategy : Strategy) (Right : Key → Value → Prop) :
    (empty strategy : Table Key Value).Records Right :=
  ⟨pending_empty strategy, by simp⟩

theorem Records.mono {Right Right' : Key → Value → Prop} (records : table.Records Right)
    (weaken : ∀ key value, Right key value → Right' key value) : table.Records Right' :=
  ⟨records.idle, fun found => weaken _ _ (records.right found)⟩

end Table

end Residual.Memo
