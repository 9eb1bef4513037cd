import Residual.Proofs.Grammar.Transformation.Scheme

/-!
# The invariant of a pass

`Run` holds while a transformation evaluates keys: the links of the keys on the stack are unbound,
and the results so far have a history in which the transformation's rule made each of them.  Links
were only told to keys that ask for themselves in the end.
-/

set_option autoImplicit false

namespace Residual.Grammar.Scheme

open Memo Eval

variable {Key : Type} [BEq Key] [Hashable Key] (scheme : Scheme Key) {key other : Key}
  {value link : ExprId} {state after : Grammar} {stack : Finset Key} {results : List (Result Key)}
  {fuel : Nat}

/-- What is known about a key during a pass.  It is its link if the key was asked for below itself. -/
def Known (state : Grammar) (key : Key) (value : ExprId) : Prop :=
  (scheme.table scheme.base.tables).settled[key]? = some value ∨
    ∃ phase, (scheme.table state.tables).pending[key]? = some ⟨value, phase⟩ ∧
      (phase = .running → scheme.Circular state.arena key)

/-- The link of a key that asks for itself, and is being evaluated or was evaluated in this pass. -/
def Linked (results : List (Result Key)) (state : Grammar) (key : Key) (link : ExprId) : Prop :=
  scheme.Circular state.arena key ∧
    ((scheme.table state.tables).pending[key]? = some ⟨link, .running⟩ ∨
      ∃ result ∈ results, result.key = key ∧ result.link = link)

/-- The state of a pass, with the keys that are being evaluated and the results so far. -/
structure Run (stack : Finset Key) (results : List (Result Key)) (state : Grammar) : Prop where
  wellFormed : state.arena.WellFormed
  fromBase : scheme.base.arena.Extends state.arena
  side : scheme.Side state
  later : scheme.Later scheme.base state
  settled_eq : (scheme.table state.tables).settled = (scheme.table scheme.base.tables).settled
  strategy_eq : (scheme.table state.tables).strategy = .singlePass
  fresh : ∀ {key : Key} {entry : Provisional ExprId},
    (scheme.table state.tables).pending[key]? = some entry →
    (scheme.table scheme.base.tables).settled[key]? = none ∧ entry.phase ≠ .carried
  running_iff : ∀ key : Key, key ∈ stack ↔
    ∃ link, (scheme.table state.tables).pending[key]? = some ⟨link, .running⟩
  running : ∀ {key : Key} {link : ExprId},
    (scheme.table state.tables).pending[key]? = some ⟨link, .running⟩ →
    scheme.base.arena.size ≤ link.number ∧ state.arena.slot? link = some (.link none)
  distinct : ∀ {key key' : Key} {link : ExprId},
    (scheme.table state.tables).pending[key]? = some ⟨link, .running⟩ →
    (scheme.table state.tables).pending[key']? = some ⟨link, .running⟩ → key = key'
  evaluated_iff : ∀ (key : Key) (value : ExprId),
    (scheme.table state.tables).pending[key]? = some ⟨value, .evaluated⟩ ↔
      ∃ result ∈ results, result.key = key ∧ result.value = value
  links : ∀ id target, state.arena.slot? id = some (.link (some target)) →
    id.number < scheme.base.arena.size ∨ ∃ result ∈ results, result.link = id
  value_lt : ∀ result ∈ results, result.value.number < state.arena.size
  bound : Interpretation.Bound scheme.base.arena state.arena results
  history : History (scheme.Rule state) scheme.base.arena state.arena
    (fun key value => (scheme.table scheme.base.tables).settled[key]? = some value)
    (scheme.Linked results state) results

/-- One state of a pass comes before another one with the same stack. -/
structure Ahead (state after : Grammar) : Prop where
  grows : state.arena.Grows after.arena
  later : scheme.Later state after
  pending : ∀ {key : Key} {entry : Provisional ExprId},
    (scheme.table state.tables).pending[key]? = some entry →
    (scheme.table after.tables).pending[key]? = some entry

variable {scheme} (lawful : scheme.Lawful)

theorem Ahead.refl (lawful : scheme.Lawful) (state : Grammar) : scheme.Ahead state state :=
  ⟨.refl _, lawful.later_refl state, fun found => found⟩

theorem Ahead.trans (lawful : scheme.Lawful) {first second third : Grammar}
    (before : scheme.Ahead first second) (ahead : scheme.Ahead second third) :
    scheme.Ahead first third :=
  ⟨before.grows.trans ahead.grows, lawful.later_trans before.later ahead.later,
    fun found => ahead.pending (before.pending found)⟩

theorem Circular.grows (lawful : scheme.Lawful) {before after : Arena}
    (circular : scheme.Circular before key) (growing : before.Grows after) :
    scheme.Circular after key :=
  Relation.TransGen.mono (fun _ _ => lawful.asks_grows growing) _ _ circular

theorem Known.ahead (lawful : scheme.Lawful) (known : scheme.Known state key value)
    (ahead : scheme.Ahead state after) : scheme.Known after key value := by
  refine known.imp_right ?_
  rintro ⟨phase, found, circular⟩
  exact ⟨phase, ahead.pending found, fun running => (circular running).grows lawful ahead.grows⟩

theorem Linked.ahead (lawful : scheme.Lawful) (linked : scheme.Linked results state key link)
    (ahead : scheme.Ahead state after) : scheme.Linked results after key link :=
  ⟨linked.1.grows lawful ahead.grows, linked.2.imp_left ahead.pending⟩

namespace Run

variable (run : scheme.Run stack results state)

include lawful run

/-- What a step does on its own keeps the invariant. -/
theorem move (moves : scheme.Moves state after) :
    scheme.Run stack results after ∧ scheme.Ahead state after := by
  have ahead : scheme.Ahead state after := by
    refine ⟨moves.extending.grows, moves.later, fun found => ?_⟩
    rw [moves.pending_eq]
    exact found
  have slot_cases : ∀ {id : ExprId} {slot : Slot}, after.arena.slot? id = some slot →
      state.arena.slot? id = some slot ∨ ∃ e, slot = .expr e := by
    intro id slot found
    by_cases inside : id.number < state.arena.size
    · left
      rwa [← moves.extending id inside]
    · exact .inr (moves.exprs (Nat.le_of_not_lt inside) found)
  refine ⟨?_, ahead⟩
  exact
    { wellFormed := moves.wellFormed
      fromBase := run.fromBase.trans moves.extending
      side := moves.side
      later := lawful.later_trans run.later moves.later
      settled_eq := by
        rw [moves.settled_eq]
        exact run.settled_eq
      strategy_eq := by
        rw [moves.strategy_eq]
        exact run.strategy_eq
      fresh := by
        rw [moves.pending_eq]
        exact run.fresh
      running_iff := by
        rw [moves.pending_eq]
        exact run.running_iff
      running := by
        rw [moves.pending_eq]
        intro key link found
        obtain ⟨fresh, unbound⟩ := run.running found
        refine ⟨fresh, ?_⟩
        rwa [moves.extending link (Arena.lt_size_of_slot? unbound)]
      distinct := by
        rw [moves.pending_eq]
        exact run.distinct
      evaluated_iff := by
        rw [moves.pending_eq]
        exact run.evaluated_iff
      links := by
        intro id target found
        rcases slot_cases found with wasThere | ⟨e, isExpr⟩
        · exact run.links id target wasThere
        · cases isExpr
      value_lt := fun result member => ahead.grows.lt_size (run.value_lt result member)
      bound := run.bound.grows ahead.grows run.wellFormed moves.wellFormed
      history := by
        exact run.history.mono ahead.grows (fun key link linked => linked.ahead lawful ahead)
          fun more rule => lawful.rule_mono ahead.later more rule }

omit run in
theorem frame : scheme.Frame (fun state => ∃ results, scheme.Run stack results state) scheme.Ahead
    scheme.Known where
  wellFormed := fun ⟨_, run⟩ => run.wellFormed
  fromBase := fun ⟨_, run⟩ => run.fromBase
  side := fun ⟨_, run⟩ => run.side
  refl := .refl lawful
  trans := .trans lawful
  grows ahead := ahead.grows
  later ahead := ahead.later
  keep ahead _ _ known := known.ahead lawful ahead
  move := fun ⟨results, run⟩ moves =>
    ⟨⟨results, (run.move lawful moves).1⟩, (run.move lawful moves).2⟩

section Tables

variable [LawfulBEq Key] [DecidableEq Key]

/-- A key that is not known yet gets a new link. -/
theorem start {begun : Table Key ExprId}
    (settled_eq : begun.settled = (scheme.table state.tables).settled)
    (pending_eq : begun.pending = (scheme.table state.tables).pending)
    (strategy_eq : begun.strategy = (scheme.table state.tables).strategy)
    (fresh : (scheme.table scheme.base.tables).settled[key]? = none)
    (unknown : (scheme.table state.tables).pending[key]? = none)
    (touches : scheme.Touches state after) (isReserved : after.arena = state.arena.reserve.2)
    (isStarted : scheme.table after.tables = begun.start key state.arena.reserve.1) :
    scheme.Run (insert key stack) results after ∧ scheme.Ahead state after := by
  obtain ⟨side, later⟩ := lawful.touch run.side touches
  have here : (scheme.table after.tables).pending[key]? =
      some ⟨state.arena.reserve.1, .running⟩ := by
    rw [isStarted, Table.pending_start_self]
    unfold Table.initial
    rw [pending_eq, unknown]
    rfl
  have elsewhere : ∀ {other : Key}, other ≠ key → (scheme.table after.tables).pending[other]? =
      (scheme.table state.tables).pending[other]? := by
    intro other distinct
    rw [isStarted, Table.pending_start_of_ne distinct, pending_eq]
  have extending : state.arena.Extends after.arena := by
    rw [isReserved]
    exact Arena.extends_reserve state.arena
  have unbound : after.arena.slot? state.arena.reserve.1 = some (.link none) := by
    rw [isReserved]
    exact Arena.slot?_reserve state.arena
  have ahead : scheme.Ahead state after := by
    refine ⟨touches.grows, later, fun {other entry} found => ?_⟩
    have distinct : other ≠ key := by
      rintro rfl
      simp [unknown] at found
    rwa [elsewhere distinct]
  have running : ∀ {other : Key} {link : ExprId}, other ≠ key →
      (scheme.table after.tables).pending[other]? = some ⟨link, .running⟩ →
      scheme.base.arena.size ≤ link.number ∧ link.number < state.arena.size ∧
        after.arena.slot? link = some (.link none) := by
    intro other link distinct found
    rw [elsewhere distinct] at found
    obtain ⟨isFresh, wasUnbound⟩ := run.running found
    have inside := Arena.lt_size_of_slot? wasUnbound
    exact ⟨isFresh, inside, (extending link inside).trans wasUnbound⟩
  refine ⟨?_, ahead⟩
  exact
    { wellFormed := touches.wellFormed
      fromBase := touches.fromBase
      side := side
      later := lawful.later_trans run.later later
      settled_eq := by
        rw [isStarted]
        exact settled_eq.trans run.settled_eq
      strategy_eq := by
        rw [isStarted]
        exact strategy_eq.trans run.strategy_eq
      fresh := by
        intro other entry found
        by_cases same : other = key
        · subst same
          rw [here] at found
          cases found
          exact ⟨fresh, by simp⟩
        · rw [elsewhere same] at found
          exact run.fresh found
      running_iff := by
        intro other
        by_cases same : other = key
        · subst same
          simp [here]
        · rw [elsewhere same, Finset.mem_insert, or_iff_right same]
          exact run.running_iff other
      running := by
        intro other link found
        by_cases same : other = key
        · subst same
          rw [here] at found
          cases found
          exact ⟨run.fromBase.grows.size_le, unbound⟩
        · exact ⟨(running same found).1, (running same found).2.2⟩
      distinct := by
        intro other other' link found found'
        by_cases same : other = key <;> by_cases same' : other' = key
        · rw [same, same']
        · subst same
          rw [here] at found
          cases found
          exact absurd (running same' found').2.1 (Nat.lt_irrefl _)
        · subst same'
          rw [here] at found'
          cases found'
          exact absurd (running same found).2.1 (Nat.lt_irrefl _)
        · rw [elsewhere same] at found
          rw [elsewhere same'] at found'
          exact run.distinct found found'
      evaluated_iff := by
        intro other value
        by_cases same : other = key
        · subst same
          rw [here, ← run.evaluated_iff, unknown]
          simp
        · rw [elsewhere same]
          exact run.evaluated_iff other value
      links := by
        intro id target found
        by_cases inside : id.number < state.arena.size
        · rw [extending id inside] at found
          exact run.links id target found
        · have bounded := Arena.lt_size_of_slot? found
          rw [isReserved] at bounded
          rw [Arena.eq_reserve_of_new bounded inside, unbound] at found
          cases found
      value_lt := fun result member => ahead.grows.lt_size (run.value_lt result member)
      bound := run.bound.grows ahead.grows run.wellFormed touches.wellFormed
      history := by
        exact run.history.mono ahead.grows (fun key link linked => linked.ahead lawful ahead)
          fun more rule => lawful.rule_mono later more rule }

omit run in
/-- The evaluation of a key ends: its link is bound to its value. -/
theorem close (run : scheme.Run (insert key stack) results state) (notOnStack : key ∉ stack)
    (onTop : (scheme.table state.tables).pending[key]? = some ⟨link, .running⟩)
    (inside : value.number < state.arena.size)
    (rule : scheme.Rule state state.arena (scheme.Known state) key value)
    (touches : scheme.Touches state after) (isBound : after.arena = (state.arena.bind link value).2)
    (isRecorded : scheme.table after.tables = (scheme.table state.tables).record key value) :
    scheme.Run stack (⟨key, link, value⟩ :: results) after := by
  obtain ⟨side, later⟩ := lawful.touch run.side touches
  obtain ⟨isFresh, unbound⟩ := run.running onTop
  have here : (scheme.table after.tables).pending[key]? = some ⟨value, .evaluated⟩ := by
    rw [isRecorded, Table.pending_record_self]
  have elsewhere : ∀ {other : Key}, other ≠ key → (scheme.table after.tables).pending[other]? =
      (scheme.table state.tables).pending[other]? := by
    intro other distinct
    rw [isRecorded, Table.pending_record_of_ne distinct]
  have notRunning : ∀ {other : Key} {link' : ExprId},
      (scheme.table after.tables).pending[other]? = some ⟨link', .running⟩ → other ≠ key := by
    rintro other link' found rfl
    rw [here] at found
    cases found
  have otherSlot : ∀ {id}, id ≠ link → after.arena.slot? id = state.arena.slot? id := by
    intro id distinct
    rw [isBound, Arena.slot?_bind_of_ne value unbound distinct]
  have linked : ∀ other link', scheme.Linked results state other link' →
      scheme.Linked (⟨key, link, value⟩ :: results) after other link' := by
    rintro other link' ⟨circular, running | ⟨result, member, sameKey, sameLink⟩⟩ <;>
      refine ⟨circular.grows lawful touches.grows, ?_⟩
    · by_cases same : other = key
      · subst same
        rw [onTop] at running
        cases running
        exact .inr ⟨_, List.mem_cons_self, rfl, rfl⟩
      · exact .inl ((elsewhere same).trans running)
    · exact .inr ⟨result, List.mem_cons_of_mem _ member, sameKey, sameLink⟩
  have noResult : ∀ result ∈ results, result.key ≠ key := by
    rintro result member rfl
    have evaluated := (run.evaluated_iff result.key result.value).mpr ⟨result, member, rfl, rfl⟩
    rw [onTop] at evaluated
    cases evaluated
  exact
    { wellFormed := touches.wellFormed
      fromBase := touches.fromBase
      side := side
      later := lawful.later_trans run.later later
      settled_eq := by
        rw [isRecorded]
        exact run.settled_eq
      strategy_eq := by
        rw [isRecorded]
        exact run.strategy_eq
      fresh := by
        intro other entry found
        by_cases same : other = key
        · subst same
          rw [here] at found
          cases found
          exact ⟨(run.fresh onTop).1, by simp⟩
        · rw [elsewhere same] at found
          exact run.fresh found
      running_iff := by
        intro other
        by_cases same : other = key
        · subst same
          simp [here, notOnStack]
        · rw [elsewhere same, ← run.running_iff, Finset.mem_insert, or_iff_right same]
      running := by
        intro other link' found
        have distinct := notRunning found
        rw [elsewhere distinct] at found
        have otherLink : link' ≠ link := by
          rintro rfl
          exact distinct (run.distinct found onTop)
        rw [otherSlot otherLink]
        exact run.running found
      distinct := by
        intro other other' link' found found'
        rw [elsewhere (notRunning found)] at found
        rw [elsewhere (notRunning found')] at found'
        exact run.distinct found found'
      evaluated_iff := by
        intro other value'
        by_cases same : other = key
        · subst same
          rw [here]
          constructor
          · intro same
            cases same
            exact ⟨_, List.mem_cons_self, rfl, rfl⟩
          · rintro ⟨result, member, sameKey, rfl⟩
            rcases List.mem_cons.mp member with rfl | member
            · rfl
            · exact absurd sameKey (noResult result member)
        · rw [elsewhere same, run.evaluated_iff]
          constructor
          · rintro ⟨result, member, facts⟩
            exact ⟨result, List.mem_cons_of_mem _ member, facts⟩
          · rintro ⟨result, member, rfl, rfl⟩
            rcases List.mem_cons.mp member with rfl | member
            · exact absurd rfl same
            · exact ⟨result, member, rfl, rfl⟩
      links := by
        intro id target found
        by_cases same : id = link
        · subst same
          exact .inr ⟨_, List.mem_cons_self, rfl⟩
        · rw [otherSlot same] at found
          rcases run.links id target found with wasThere | ⟨result, member, rfl⟩
          · exact .inl wasThere
          · exact .inr ⟨result, List.mem_cons_of_mem _ member, rfl⟩
      value_lt := by
        intro result member
        rcases List.mem_cons.mp member with rfl | member
        · exact touches.grows.lt_size inside
        · exact touches.grows.lt_size (run.value_lt result member)
      bound := by
        rw [isBound]
        exact run.bound.bind run.wellFormed isFresh unbound inside
      history := by
        refine .cons state.arena (run.history.mono touches.grows linked fun more rule =>
          lawful.rule_mono later more rule) run.wellFormed run.fromBase touches.grows run.links ?_
        refine lawful.rule_mono later (fun other answer known => ?_) rule
        rcases known with settled | ⟨phase, found, circular⟩
        · exact .inl settled
        · cases phase with
          | running => exact .inr (.inl (linked other answer ⟨circular rfl, .inl found⟩))
          | evaluated => exact .inr (.inr ((run.evaluated_iff other answer).mp found))
          | carried => exact absurd rfl (run.fresh found).2 }

end Tables

theorem value_lt_of_known (known : scheme.Known state key value) :
    value.number < state.arena.size := by
  rcases known with settled | ⟨phase, found, _⟩
  · exact run.fromBase.grows.lt_size (lawful.settled_lt settled)
  · cases phase with
    | running => exact Arena.lt_size_of_slot? (run.running found).2
    | evaluated =>
        obtain ⟨result, member, _, rfl⟩ := (run.evaluated_iff key value).mp found
        exact run.value_lt result member
    | carried => exact absurd rfl (run.fresh found).2

end Run

/-- The state in which the evaluation of a key begins, with a new link for it. -/
theorem touches_started (run : scheme.Run stack results state)
    (f : Table Key ExprId → Table Key ExprId) :
    scheme.Touches state
      { state with
        arena := state.arena.reserve.2
        tables := scheme.modifyTable f state.tables } where
  config := rfl
  fault := rfl
  tables := ⟨f, rfl⟩
  wellFormed := run.wellFormed.reserve
  grows := (Arena.extends_reserve state.arena).grows
  fromBase := run.fromBase.trans (Arena.extends_reserve state.arena)

/-- No key is evaluated before the outermost call. -/
theorem run_base (wellFormed : scheme.base.arena.WellFormed) (side : scheme.Side scheme.base)
    (later : scheme.Later scheme.base scheme.base)
    (singlePass : (scheme.table scheme.base.tables).strategy = .singlePass)
    (idle : ∀ key : Key, (scheme.table scheme.base.tables).pending[key]? = none) :
    scheme.Run ∅ [] scheme.base where
  wellFormed := wellFormed
  fromBase := .refl _
  side := side
  later := later
  settled_eq := rfl
  strategy_eq := singlePass
  fresh found := by simp [idle] at found
  running_iff key := by simp [idle]
  running found := by simp [idle] at found
  distinct found := by simp [idle] at found
  evaluated_iff key value := by simp [idle]
  links id target found := .inl (Arena.lt_size_of_slot? found)
  value_lt := by simp
  bound := ⟨by simp, by simp, by simp, by simp⟩
  history := .nil

end Residual.Grammar.Scheme
