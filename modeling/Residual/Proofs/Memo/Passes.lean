import Mathlib.Data.Finset.Card
import Mathlib.Logic.Relation
import Residual.Proofs.Memo.Readings
import Residual.Proofs.Memo.Tables

/-!
# One pass of an evaluation

`Pass` is the invariant of a pass: the keys under evaluation are those on the stack, and the value
of every key that was evaluated answers its equation from what was `Seen`.  A value that was seen
and is not final was the provisional value of a key on a cycle, and then the table has the mark
that a pass is repeated for.

`Seen` may hold of two values for one key, that of the former pass and a new one.  While a key is
evaluated only one of them is `Told`: the keys on the stack stay there.  So each equation was
evaluated under an assignment, and all values are `Available` from the provisional ones.
-/

set_option autoImplicit false

namespace Residual.Memo

variable {Key Value : Type} [BEq Key] [Hashable Key] {table between after : Table Key Value}
  {key other : Key} {value : Value}

/-- What a pass does to a table. -/
structure Proceeds (table after : Table Key Value) : Prop where
  evaluated : ∀ {key : Key} {value : Value}, table.pending[key]? = some ⟨value, .evaluated⟩ →
    after.pending[key]? = some ⟨value, .evaluated⟩
  running : ∀ {key : Key} {value : Value}, table.pending[key]? = some ⟨value, .running⟩ →
    after.pending[key]? = some ⟨value, .running⟩ ∨
      ∃ later, after.pending[key]? = some ⟨later, .evaluated⟩ ∧
        (later = value ∨ after.changed = true)
  reentered : table.reentered = true → after.reentered = true
  changed : table.changed = true → after.changed = true

namespace Proceeds

theorem refl (table : Table Key Value) : Proceeds table table :=
  ⟨fun found => found, fun found => .inl found, fun marked => marked, fun marked => marked⟩

theorem trans (first : Proceeds table between) (second : Proceeds between after) :
    Proceeds table after where
  evaluated found := second.evaluated (first.evaluated found)
  running found := by
    rcases first.running found with still | ⟨later, found, same⟩
    · exact second.running still
    · exact .inr ⟨later, second.evaluated found, same.imp_right second.changed⟩
  reentered marked := second.reentered (first.reentered marked)
  changed marked := second.changed (first.changed marked)

end Proceeds

/-- Equations in readings over finitely many keys, with a property of all values on the way to
their solution. -/
structure EquationSystem (Key Value : Type) where
  equation : Key → Reading Key Value Value
  bottom : Key → Value
  keys : Finset Key
  /-- The equation of the first key may ask for the second key. -/
  Asks : Key → Key → Prop
  Bound : Key → Value → Prop
  asks : ∀ key ∈ keys, (equation key).Asks fun other => Asks key other ∧ other ∈ keys
  /-- Only a key that depends on itself is answered with its bottom. -/
  bottom_bound : ∀ key ∈ keys, Relation.TransGen Asks key key → Bound key (bottom key)
  equation_bound : ∀ key ∈ keys, ∀ value, (equation key).Answers Bound value → Bound key value

namespace EquationSystem

variable (system : EquationSystem Key Value) {base : Table Key Value} {former : Key → Value}
  {root : Key} {stack : Finset Key}

/-- The key depends on itself. -/
def Cyclic (key : Key) : Prop :=
  Relation.TransGen system.Asks key key

/-- The key can be asked for on the way to the value of `root`, by keys that are not settled. -/
def Path (base : Table Key Value) (root key : Key) : Prop :=
  Relation.ReflTransGen (fun x y => system.Asks x y ∧ base.settled[y]? = none) root key

/-- The way to the value of `root` leads around a cycle. -/
def Circular (base : Table Key Value) (root : Key) : Prop :=
  ∃ key, system.Path base root key ∧ system.Cyclic key

/-- The value that the evaluation of `key` may have been told for another key. -/
def Seen (base : Table Key Value) (former : Key → Value) (table : Table Key Value) (key other : Key)
    (value : Value) : Prop :=
  base.settled[other]? = some value ∨
  table.pending[other]? = some ⟨value, .evaluated⟩ ∨
  (system.Cyclic key ∧ table.reentered = true ∧ value = former other ∧
    (table.pending[other]? = some ⟨value, .running⟩ ∨
      (table.changed = true ∧ ∃ later, table.pending[other]? = some ⟨later, .evaluated⟩)))

/-- What a key that is asked for is worth while the keys of the stack are being evaluated. -/
def Told (base : Table Key Value) (former : Key → Value) (stack : Finset Key)
    (table : Table Key Value) (other : Key) (value : Value) : Prop :=
  base.settled[other]? = some value ∨
  table.pending[other]? = some ⟨value, .evaluated⟩ ∨
  (other ∈ stack ∧ value = former other)

/-- The values that a pass can come to: settled ones, provisional ones, and those of equations that
are told such values. -/
inductive Available (base : Table Key Value) (former : Key → Value) : Key → Value → Prop where
  | settled {key : Key} {value : Value} (found : base.settled[key]? = some value) :
      Available base former key value
  | former (key : Key) : Available base former key (former key)
  | computed {key : Key} {value : Value} (inKeys : key ∈ system.keys)
      (told : Key → Value) (isValue : (system.equation key).eval told = value)
      (each : ∀ other ∈ (system.equation key).asked told, Available base former other (told other)) :
      Available base former key value

/-- The state of a table during a pass for `root`, while the keys of the stack are being evaluated.
The settled values are those of the table `base`, and the provisional values those of `former`. -/
structure Pass (base : Table Key Value) (former : Key → Value) (root : Key) (stack : Finset Key)
    (table : Table Key Value) : Prop where
  settled_eq : table.settled = base.settled
  strategy_eq : table.strategy = base.strategy
  truncated_eq : table.truncated = base.truncated
  circular : table.reentered = true → system.Circular base root
  pending : ∀ {key : Key} {entry : Provisional Value}, table.pending[key]? = some entry →
    base.settled[key]? = none ∧ key ∈ system.keys ∧ system.Path base root key ∧
      ((entry.phase = .running → system.Cyclic key) → system.Bound key entry.value)
  initial : ∀ key, ¬ table.Evaluated key → table.initial key (system.bottom key) = former key
  running_iff : ∀ key, key ∈ stack ↔ ∃ value, table.pending[key]? = some ⟨value, .running⟩
  evaluated : ∀ {key : Key} {value : Value}, table.pending[key]? = some ⟨value, .evaluated⟩ →
    (system.equation key).Reports
      (fun other told => system.Seen base former table key other told ∧
        system.Available base former other told) value
  changed : table.changed = true →
    ∃ key value, table.pending[key]? = some ⟨value, .evaluated⟩ ∧ value ≠ former key

variable {system} in
theorem Told.proceeds (told : Told base former stack table other value)
    (proceeds : Proceeds table after) : Told base former stack after other value :=
  told.imp_right fun told => told.imp_left proceeds.evaluated

variable {system} in
theorem Seen.proceeds (seen : system.Seen base former table key other value)
    (proceeds : Proceeds table after) :
    system.Seen base former after key other value := by
  rcases seen with settled | evaluated | ⟨cyclic, reentered, started, provisional⟩
  · exact .inl settled
  · exact .inr (.inl (proceeds.evaluated evaluated))
  · have reentered := proceeds.reentered reentered
    rcases provisional with running | ⟨changed, later, evaluated⟩
    · rcases proceeds.running running with still | ⟨later, evaluated, rfl | changed⟩
      · exact .inr (.inr ⟨cyclic, reentered, started, .inl still⟩)
      · exact .inr (.inl evaluated)
      · exact .inr (.inr ⟨cyclic, reentered, started, .inr ⟨changed, later, evaluated⟩⟩)
    · exact .inr (.inr ⟨cyclic, reentered, started,
        .inr ⟨proceeds.changed changed, later, proceeds.evaluated evaluated⟩⟩)

namespace Pass

variable {system}

/-- Before the first pass nothing is pending. -/
theorem first (idle : ∀ key : Key, base.pending[key]? = none) :
    system.Pass base system.bottom root ∅ base.startPasses := by
  have nothing : ∀ {key : Key} {entry : Provisional Value},
      base.startPasses.pending[key]? ≠ some entry := by
    intro key entry found
    exact absurd ((idle key).symm.trans found) nofun
  refine ⟨rfl, rfl, rfl, nofun, fun found => absurd found nothing, ?_, ?_,
    fun found => absurd found nothing, nofun⟩
  · intro key _
    change (Option.map _ base.pending[key]?).getD _ = _
    rw [idle]
    rfl
  · intro key
    simp [nothing]

variable (pass : system.Pass base former root stack table)

include pass

/-- The invariant for the evaluated keys survives what a pass does. -/
theorem evaluated_proceeds (proceeds : Proceeds table after)
    (found : table.pending[key]? = some ⟨value, .evaluated⟩) :
    (system.equation key).Reports
      (fun other told => system.Seen base former after key other told ∧
        system.Available base former other told) value :=
  (pass.evaluated found).mono fun _ _ facts => facts.imp_left fun seen => seen.proceeds proceeds

theorem changed_proceeds (proceeds : Proceeds table after) (changed : table.changed = true) :
    ∃ key value, after.pending[key]? = some ⟨value, .evaluated⟩ ∧ value ≠ former key := by
  obtain ⟨key, value, evaluated, differs⟩ := pass.changed changed
  exact ⟨key, value, proceeds.evaluated evaluated, differs⟩

/-- The value of an evaluated key answers its equation from what was seen. -/
theorem answers (found : table.pending[key]? = some ⟨value, .evaluated⟩) :
    (system.equation key).Answers (system.Seen base former table key) value :=
  (pass.evaluated found).answers.mono fun _ _ facts => facts.1

theorem available (found : table.pending[key]? = some ⟨value, .evaluated⟩) :
    system.Available base former key value := by
  obtain ⟨told, isValue, holds⟩ := pass.evaluated found
  exact .computed (pass.pending found).2.1 told isValue fun other member => (holds other member).2

theorem available_of_told (told : Told base former stack table key value) :
    system.Available base former key value := by
  rcases told with settled | evaluated | ⟨_, rfl⟩
  · exact .settled settled
  · exact pass.available evaluated
  · exact .former key

/-- A key is told one value. -/
theorem told_unique {value' : Value} (told : Told base former stack table key value)
    (told' : Told base former stack table key value') : value = value' := by
  have notSettled : ∀ {entry}, table.pending[key]? = some entry → ∀ value,
      base.settled[key]? ≠ some value := by
    intro entry found value settled
    simp [(pass.pending found).1] at settled
  have running : key ∈ stack → ∃ value, table.pending[key]? = some ⟨value, .running⟩ :=
    (pass.running_iff key).mp
  rcases told with settled | evaluated | ⟨onStack, rfl⟩ <;>
    rcases told' with settled' | evaluated' | ⟨onStack', rfl⟩
  · exact Option.some.inj (settled.symm.trans settled')
  · exact absurd settled (notSettled evaluated' value)
  · obtain ⟨_, found⟩ := running onStack'
    exact absurd settled (notSettled found value)
  · exact absurd settled' (notSettled evaluated value')
  · simpa using evaluated.symm.trans evaluated'
  · obtain ⟨_, found⟩ := running onStack'
    simp [evaluated] at found
  · obtain ⟨_, found⟩ := running onStack
    exact absurd settled' (notSettled found value')
  · obtain ⟨_, found⟩ := running onStack
    simp [evaluated'] at found
  · rfl

theorem markReentered (circular : system.Circular base root) :
    system.Pass base former root stack table.markReentered ∧ Proceeds table table.markReentered := by
  have proceeds : Proceeds table table.markReentered :=
    ⟨fun found => found, fun found => .inl found, fun _ => rfl, fun marked => marked⟩
  exact ⟨⟨pass.settled_eq, pass.strategy_eq, pass.truncated_eq, fun _ => circular, pass.pending,
    pass.initial, pass.running_iff, pass.evaluated_proceeds proceeds, pass.changed_proceeds proceeds⟩,
    proceeds⟩

/-- A key under evaluation is worth what it was in the former pass. -/
theorem former_of_running (found : table.pending[key]? = some ⟨value, .running⟩) :
    former key = value := by
  rw [← pass.initial key (by simp [Table.Evaluated, found]), Table.initial_of_pending found]

/-- What is already known during a pass was seen by whoever asks, if a key under evaluation is
asked for on a cycle only. -/
theorem seen_of_running {asking : Key}
    (cyclic : other ∈ stack → system.Cyclic asking) (reentered : table.reentered = true)
    (found : table.pending[other]? = some ⟨value, .running⟩) :
    system.Seen base former table asking other value :=
  .inr (.inr ⟨cyclic ((pass.running_iff other).mpr ⟨value, found⟩), reentered,
    (pass.former_of_running found).symm, .inl found⟩)

/-- Nothing is under evaluation when a pass ends. -/
theorem not_running (finished : stack = ∅) {entry : Provisional Value}
    (found : table.pending[key]? = some entry) : entry.phase ≠ .running := by
  intro running
  obtain ⟨value, phase⟩ := entry
  obtain rfl : phase = .running := running
  have onStack := (pass.running_iff key).mpr ⟨value, found⟩
  simp [finished] at onStack

theorem bound_of_finished (finished : stack = ∅) {entry : Provisional Value}
    (found : table.pending[key]? = some entry) : system.Bound key entry.value :=
  (pass.pending found).2.2.2 fun running => absurd running (pass.not_running finished found)

section Operations

variable [LawfulBEq Key] [DecidableEq Key]

theorem start (inKeys : key ∈ system.keys) (fresh : base.settled[key]? = none)
    (path : system.Path base root key)
    (unevaluated : ∀ value phase, table.pending[key]? = some ⟨value, phase⟩ → phase = .carried) :
    system.Pass base former root (insert key stack) (table.start key (system.bottom key)) ∧
      Proceeds table (table.start key (system.bottom key)) := by
  have elsewhere : ∀ {other value phase}, phase ≠ .carried →
      table.pending[other]? = some ⟨value, phase⟩ → other ≠ key := by
    rintro other value phase notCarried found rfl
    exact notCarried (unevaluated value phase found)
  have proceeds : Proceeds table (table.start key (system.bottom key)) := by
    refine ⟨fun found => ?_, fun found => .inl ?_, fun marked => marked, fun marked => marked⟩
    · rw [Table.pending_start_of_ne (elsewhere (by simp) found)]
      exact found
    · rw [Table.pending_start_of_ne (elsewhere (by simp) found)]
      exact found
  refine ⟨⟨pass.settled_eq, pass.strategy_eq, pass.truncated_eq, pass.circular, ?_, ?_, ?_, ?_,
    pass.changed_proceeds proceeds⟩, proceeds⟩
  · intro other entry found
    by_cases same : other = key
    · subst same
      rw [Table.pending_start_self] at found
      cases found
      refine ⟨fresh, inKeys, path, fun cyclic => ?_⟩
      change system.Bound other (table.initial other (system.bottom other))
      unfold Table.initial
      cases earlier : table.pending[other]? with
      | none => exact system.bottom_bound other inKeys (cyclic rfl)
      | some entry => exact (pass.pending earlier).2.2.2 fun _ => cyclic rfl
    · rw [Table.pending_start_of_ne same] at found
      exact pass.pending found
  · intro other unevaluated'
    by_cases same : other = key
    · subst same
      rw [Table.initial_of_pending Table.pending_start_self]
      refine pass.initial other ?_
      rintro ⟨value, found⟩
      exact absurd (unevaluated value _ found) (by simp)
    · unfold Table.Evaluated at unevaluated'
      rw [Table.pending_start_of_ne same] at unevaluated'
      rw [Table.initial_of_getElem?_eq (Table.pending_start_of_ne same)]
      exact pass.initial other unevaluated'
  · intro other
    by_cases same : other = key
    · subst same
      simp [Table.pending_start_self]
    · rw [Table.pending_start_of_ne same, Finset.mem_insert, or_iff_right same]
      exact pass.running_iff other
  · intro other value found
    have distinct : other ≠ key := by
      rintro rfl
      rw [Table.pending_start_self] at found
      cases found
    rw [Table.pending_start_of_ne distinct] at found
    exact pass.evaluated_proceeds proceeds found

omit [DecidableEq Key] in
/-- The next pass starts from the values of a pass that ended. -/
theorem restart (finished : stack = ∅) (found : table.pending[root]? = some ⟨value, .evaluated⟩) :
    system.Pass base (fun key => table.initial key (system.bottom key)) root {root}
      (table.restart root) := by
  refine ⟨pass.settled_eq, pass.strategy_eq, pass.truncated_eq, nofun, ?_,
    fun key _ => Table.initial_restart root, ?_, ?_, nofun⟩
  · intro key entry found
    have earlier : ∃ earlier, table.pending[key]? = some earlier ∧ earlier.value = entry.value := by
      by_cases same : key = root
      · subst same
        rw [Table.pending_restart_self, Option.map_eq_some_iff] at found
        obtain ⟨earlier, was, rfl⟩ := found
        exact ⟨earlier, was, rfl⟩
      · rw [Table.pending_restart_of_ne same, Option.map_eq_some_iff] at found
        obtain ⟨earlier, was, rfl⟩ := found
        exact ⟨earlier, was, rfl⟩
    obtain ⟨earlier, was, same⟩ := earlier
    obtain ⟨fresh, inKeys, path, _⟩ := pass.pending was
    exact ⟨fresh, inKeys, path, fun _ => same ▸ pass.bound_of_finished finished was⟩
  · intro key
    by_cases same : key = root
    · subst same
      simp [Table.pending_restart_self, found]
    · rw [Table.pending_restart_of_ne same]
      cases table.pending[key]? <;> simp [same]
  · intro key value found
    by_cases same : key = root
    · subst same
      rw [Table.pending_restart_self, Option.map_eq_some_iff] at found
      obtain ⟨earlier, _, isEvaluated⟩ := found
      cases isEvaluated
    · rw [Table.pending_restart_of_ne same, Option.map_eq_some_iff] at found
      obtain ⟨earlier, _, isEvaluated⟩ := found
      cases isEvaluated

omit pass in
theorem record [BEq Value] [LawfulBEq Value]
    (pass : system.Pass base former root (insert key stack) table) (notOnStack : key ∉ stack)
    (answers : (system.equation key).Answers
      (fun other told => system.Seen base former table key other told ∧
        Told base former (insert key stack) table other told) value)
    (bound : system.Bound key value) :
    system.Pass base former root stack (table.record key value) ∧
      Proceeds table (table.record key value) := by
  obtain ⟨earlier, running⟩ := (pass.running_iff key).mp (Finset.mem_insert_self key stack)
  have changed : (table.record key value).changed = true ↔ _ := Table.changed_record running
  have proceeds : Proceeds table (table.record key value) := by
    refine ⟨fun {other value'} found => ?_, fun {other value'} found => ?_,
      fun marked => marked, fun marked => changed.mpr (.inl marked)⟩
    · have distinct : other ≠ key := by
        rintro rfl
        simp [running] at found
      rw [Table.pending_record_of_ne distinct]
      exact found
    · by_cases same : other = key
      · subst same
        rw [running] at found
        cases found
        refine .inr ⟨value, Table.pending_record_self, ?_⟩
        rw [changed, ne_eq]
        tauto
      · rw [Table.pending_record_of_ne same]
        exact .inl found
  have reports := answers.reports former fun facts facts' => pass.told_unique facts.2 facts'.2
  refine ⟨⟨pass.settled_eq, pass.strategy_eq, pass.truncated_eq, pass.circular, ?_, ?_, ?_, ?_, ?_⟩,
    proceeds⟩
  · intro other entry found
    by_cases same : other = key
    · subst same
      rw [Table.pending_record_self] at found
      cases found
      obtain ⟨fresh, inKeys, path, _⟩ := pass.pending running
      exact ⟨fresh, inKeys, path, fun _ => bound⟩
    · rw [Table.pending_record_of_ne same] at found
      exact pass.pending found
  · intro other unevaluated
    have distinct : other ≠ key := by
      rintro rfl
      exact unevaluated ⟨value, Table.pending_record_self⟩
    unfold Table.Evaluated at unevaluated
    rw [Table.pending_record_of_ne distinct] at unevaluated
    rw [Table.initial_of_getElem?_eq (Table.pending_record_of_ne distinct)]
    exact pass.initial other unevaluated
  · intro other
    by_cases same : other = key
    · subst same
      simp [Table.pending_record_self, notOnStack]
    · rw [Table.pending_record_of_ne same, ← pass.running_iff, Finset.mem_insert,
        or_iff_right same]
  · intro other value' found
    by_cases same : other = key
    · subst same
      rw [Table.pending_record_self] at found
      cases found
      exact reports.mono fun _ _ facts =>
        ⟨facts.1.proceeds proceeds, pass.available_of_told facts.2⟩
    · rw [Table.pending_record_of_ne same] at found
      exact pass.evaluated_proceeds proceeds found
  · intro marked
    rcases changed.mp marked with earlier | differs
    · exact pass.changed_proceeds proceeds earlier
    · rw [← pass.former_of_running running] at differs
      exact ⟨key, value, Table.pending_record_self, differs⟩

end Operations

end Pass

end EquationSystem

end Residual.Memo
