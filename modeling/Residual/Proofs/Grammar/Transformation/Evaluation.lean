import Residual.Proofs.Grammar.Transformation.Run

/-!
# Transformations answer

Nested calls keep the invariant of the pass, and the outermost call leaves a table whose new
entries were all made by the rule of the transformation.
-/

set_option autoImplicit false

namespace Residual.Grammar.Scheme

open Memo Eval

variable {Key : Type} [BEq Key] [Hashable Key] {scheme : Scheme Key} {key other : Key}
  {value link : ExprId} {state after : Grammar} {stack : Finset Key} {results : List (Result Key)}
  {fuel : Nat}

variable (lawful : scheme.Lawful)

section Evaluation

variable [LawfulBEq Key] [DecidableEq Key]

/-- Some pass with this stack has led to the state. -/
def Within (scheme : Scheme Key) (stack : Finset Key) (state : Grammar) : Prop :=
  ∃ results, scheme.Run stack results state

/-- The keys that are being evaluated asked for this one, by way of each other. -/
def Above (scheme : Scheme Key) (stack : Finset Key) (key : Key) (state : Grammar) : Prop :=
  ∀ other ∈ stack, Relation.TransGen (scheme.Asks state.arena) other key

/-- A nested call of the function. -/
def Nested (scheme : Scheme Key) (fuel : Nat) : Prop :=
  ∀ {key stack state}, scheme.Within stack state → stack.Nonempty →
    scheme.Valid state.arena key → scheme.Above stack key state →
    scheme.weight * (scheme.keys \ stack).card + scheme.rank key < fuel →
    (scheme.function.solve fuel key).Yields state
      (Answered (scheme.Within stack) scheme.Ahead scheme.Known key state)

include lawful

omit [LawfulBEq Key] [DecidableEq Key] in
theorem Above.grows (above : scheme.Above stack key state)
    (growing : state.arena.Grows after.arena) : scheme.Above stack key after :=
  fun other onStack =>
    Relation.TransGen.mono (fun _ _ => lawful.asks_grows growing) _ _ (above other onStack)

omit lawful [LawfulBEq Key] in
/-- The key on top of the stack asks for another one. -/
theorem Above.ask (above : scheme.Above stack key state)
    (asks : scheme.Asks state.arena key other) : scheme.Above (insert key stack) other state := by
  intro running onStack
  rcases Finset.mem_insert.mp onStack with rfl | onStack
  · exact .single asks
  · exact (above running onStack).tail asks

/-- Evaluating the key on top of the stack. -/
theorem yields_pass (nested : scheme.Nested fuel)
    (run : scheme.Run (insert key stack) results state) (notOnStack : key ∉ stack)
    (above : scheme.Above stack key state)
    (onTop : (scheme.table state.tables).pending[key]? = some ⟨link, .running⟩)
    (valid : scheme.Valid state.arena key)
    (enough : scheme.weight * (scheme.keys \ stack).card + scheme.rank key < fuel + 1) :
    (scheme.function.pass fuel key link).Yields state fun value after =>
      scheme.Within stack after ∧ state.arena.Grows after.arena ∧ scheme.Later state after ∧
        value.number < after.arena.size ∧
        (scheme.table after.tables).pending[key]? = some ⟨value, .evaluated⟩ ∧
        ∀ {other : Key} {entry : Provisional ExprId}, other ≠ key →
          (scheme.table state.tables).pending[other]? = some entry →
          (scheme.table after.tables).pending[other]? = some entry := by
  have fewer : ∀ (other : Key) (state : Grammar), scheme.Valid state.arena other →
      (key ∈ scheme.keys ∨ scheme.rank other < scheme.rank key) →
      scheme.weight * (scheme.keys \ insert key stack).card + scheme.rank other < fuel := by
    rintro other state valid (inKeys | lower)
    · have member : key ∈ scheme.keys \ stack := Finset.mem_sdiff.mpr ⟨inKeys, notOnStack⟩
      have smaller := Finset.card_erase_of_mem member
      have positive := Finset.card_pos.mpr ⟨key, member⟩
      have light := lawful.rank_lt valid
      rw [← Finset.sdiff_insert] at smaller
      obtain ⟨size, isSize⟩ : ∃ size, (scheme.keys \ stack).card = size + 1 :=
        ⟨(scheme.keys \ stack).card - 1, by omega⟩
      rw [isSize, Nat.mul_add] at enough
      rw [smaller, isSize, Nat.add_sub_cancel]
      omega
    · have smaller : (scheme.keys \ insert key stack).card ≤ (scheme.keys \ stack).card :=
        Finset.card_le_card (Finset.sdiff_subset_sdiff subset_rfl (Finset.subset_insert key stack))
      have := Nat.mul_le_mul_left scheme.weight smaller
      omega
  let Invariant : Grammar → Prop := fun state =>
    scheme.Within (insert key stack) state ∧ scheme.Above stack key state
  have frame : scheme.Frame Invariant scheme.Ahead scheme.Known :=
    Frame.and (Run.frame lawful) fun ahead above => above.grows lawful ahead.grows
  have asked : ∀ {other state}, Invariant state → scheme.Valid state.arena other →
      scheme.Asks state.arena key other →
      (key ∈ scheme.keys ∨ scheme.rank other < scheme.rank key) →
      (scheme.function.solve fuel other).Yields state
        (Answered Invariant scheme.Ahead scheme.Known other state) := by
    rintro other state ⟨within, above⟩ valid asks order
    refine (nested within (Finset.insert_nonempty key stack) valid (above.ask asks)
      (fewer _ _ valid order)).mono ?_
    rintro value after ⟨within, ahead, inside, known⟩
    exact ⟨⟨within, above.grows lawful ahead.grows⟩, ahead, inside, known⟩
  have stepped := lawful.step_yields frame asked ⟨⟨results, run⟩, above⟩ valid
  unfold Recursion.pass
  refine (yields_bind _ _ _).mpr (stepped.mono ?_)
  rintro value between ⟨⟨⟨results, run'⟩, _⟩, ahead, inside, rule⟩
  have onTop := ahead.pending onTop
  obtain ⟨_, unbound⟩ := run'.running onTop
  have grows := Arena.grows_bind value unbound
  have base_lt := (run'.running onTop).1
  have touches : scheme.Touches between
      { between with
        arena := (between.arena.bind link value).2
        tables := scheme.modifyTable (Table.record key value) between.tables } :=
    { config := rfl
      fault := rfl
      tables := ⟨_, rfl⟩
      wellFormed := run'.wellFormed.bind value unbound inside
      grows := grows
      fromBase := run'.fromBase.trans_of_agree fun id isOld => by
        refine Arena.slot?_bind_of_ne value unbound ?_
        rintro rfl
        exact absurd isOld (Nat.not_lt_of_le base_lt) }
  obtain ⟨_, later⟩ := lawful.touch run'.side touches
  have closed := run'.close lawful notOnStack onTop inside rule touches rfl
    (lawful.isField.table_modify _ _)
  have finished : (scheme.function.finish key link value).Yields between fun value' after =>
      value' = value ∧ after = { between with arena := (between.arena.bind link value).2 } := by
    change Yields ((liftM (bindLink link value) : Eval Grammar Bool) >>= fun _ => pure value)
      between _
    rw [yields_bind, yields_lift, yields_pure]
    exact ⟨rfl, rfl⟩
  refine (yields_bind _ _ _).mpr (finished.mono ?_)
  rintro value' bound ⟨rfl, rfl⟩
  simp only [yields_bind, yields_modify, yields_pure]
  refine ⟨⟨_, closed⟩, ahead.grows.trans grows, lawful.later_trans ahead.later later,
    grows.lt_size inside, ?_, ?_⟩
  · change (scheme.table (scheme.modifyTable _ _)).pending[key]? = _
    rw [lawful.isField.table_modify, Table.pending_record_self]
  · intro other entry distinct found
    change (scheme.table (scheme.modifyTable _ _)).pending[other]? = _
    rw [lawful.isField.table_modify, Table.pending_record_of_ne distinct]
    exact ahead.pending found

/-- Every nested call answers. -/
theorem nested (fuel : Nat) : scheme.Nested fuel := by
  induction fuel with
  | zero =>
      intro key stack state _ _ _ _ enough
      exact absurd enough (Nat.not_lt_zero _)
  | succ fuel inductionHypothesis =>
      rintro key stack state ⟨results, run⟩ nonempty valid above enough
      rcases (scheme.table state.tables).lookup_cases key with
        ⟨value, settled, isKnown⟩ | ⟨_, value, running, isReentrant⟩ |
        ⟨_, value, evaluated, isKnown⟩ | ⟨fresh, unevaluated, isUnknown⟩
      · have known : scheme.Known state key value := .inl (by rwa [← run.settled_eq])
        exact (Recursion.yields_solve_known isKnown).mpr
          ⟨⟨results, run⟩, .refl lawful state, run.value_lt_of_known lawful known, known⟩
      · refine (Recursion.yields_solve_reentrant isReentrant).mpr ?_
        let marked : Grammar :=
          { state with tables := scheme.modifyTable Table.markReentered state.tables }
        have isTable : scheme.table marked.tables = (scheme.table state.tables).markReentered :=
          lawful.isField.table_modify _ _
        have touches : scheme.Touches state marked :=
          ⟨rfl, rfl, ⟨_, rfl⟩, run.wellFormed, .refl _, run.fromBase⟩
        obtain ⟨side, later⟩ := lawful.touch run.side touches
        have moves : scheme.Moves state marked :=
          { wellFormed := run.wellFormed
            extending := .refl _
            exprs := fun outside found =>
              absurd (Arena.lt_size_of_slot? found) (Nat.not_lt_of_le outside)
            settled_eq := by rw [isTable]; rfl
            pending_eq := by rw [isTable]; rfl
            strategy_eq := by rw [isTable]; rfl
            side := side
            later := later }
        obtain ⟨run', ahead⟩ := run.move lawful moves
        -- the key is on the stack, so that it has asked for itself
        have circular : scheme.Circular state.arena key :=
          above key ((run.running_iff key).mpr ⟨value, running⟩)
        have known : scheme.Known marked key value :=
          .inr ⟨_, ahead.pending running, fun _ => circular⟩
        exact ⟨⟨results, run'⟩, ahead, run'.value_lt_of_known lawful known, known⟩
      · have known : scheme.Known state key value := .inr ⟨_, evaluated, by simp⟩
        exact (Recursion.yields_solve_known isKnown).mpr
          ⟨⟨results, run⟩, .refl lawful state, run.value_lt_of_known lawful known, known⟩
      · have fresh : (scheme.table scheme.base.tables).settled[key]? = none := by
          rwa [← run.settled_eq]
        have unknown : (scheme.table state.tables).pending[key]? = none := by
          cases entry : (scheme.table state.tables).pending[key]? with
          | none => rfl
          | some entry' =>
              obtain ⟨value, phase⟩ := entry'
              exact absurd (unevaluated value phase entry) (run.fresh entry).2
        have notOnStack : key ∉ stack := by
          intro onStack
          obtain ⟨value, running⟩ := (run.running_iff key).mp onStack
          simp [unknown] at running
        have inUse : (scheme.table state.tables).inUse = true := by
          obtain ⟨other, onStack⟩ := nonempty
          obtain ⟨value, running⟩ := (run.running_iff other).mp onStack
          by_contra idle
          simp [Table.not_inUse_iff.mp (Bool.eq_false_iff.mpr idle) other] at running
        refine (Recursion.yields_solve_nested isUnknown inUse).mpr ?_
        change Yields (liftM reserve : Eval Grammar ExprId) state _
        rw [yields_lift]
        let link := state.arena.reserve.1
        let started : Grammar :=
          { state with
            arena := state.arena.reserve.2
            tables := scheme.modifyTable (Table.start key link) state.tables }
        have isTable : scheme.table started.tables =
            (scheme.table state.tables).start key link :=
          lawful.isField.table_modify _ _
        have touches : scheme.Touches state started := touches_started run _
        obtain ⟨run', ahead⟩ := run.start lawful rfl rfl rfl fresh unknown touches rfl isTable
        have onTop : (scheme.table started.tables).pending[key]? = some ⟨link, .running⟩ := by
          rw [isTable, Table.pending_start_self]
          unfold Table.initial
          rw [unknown]
          rfl
        refine (yields_pass lawful inductionHypothesis run' notOnStack
          (above.grows lawful ahead.grows) onTop
          (lawful.valid_grows valid ahead.grows run.wellFormed run'.wellFormed) enough).mono ?_
        rintro value after ⟨within, grows, later, inside, evaluated, others⟩
        refine ⟨within, ⟨ahead.grows.trans grows, lawful.later_trans ahead.later later,
          fun {other entry} found => ?_⟩, inside, .inr ⟨_, evaluated, by simp⟩⟩
        refine others ?_ (ahead.pending found)
        rintro rfl
        simp [unknown] at found

end Evaluation

/-- What an outermost call leaves behind. -/
structure Finished (scheme : Scheme Key) (root : Key) (value : ExprId)
    (results : List (Result Key)) (after : Grammar) : Prop where
  wellFormed : after.arena.WellFormed
  fromBase : scheme.base.arena.Extends after.arena
  side : scheme.Side after
  later : scheme.Later scheme.base after
  idle : ∀ key : Key, (scheme.table after.tables).pending[key]? = none
  strategy_eq : (scheme.table after.tables).strategy = .singlePass
  settled_iff : ∀ (key : Key) (value : ExprId),
    (scheme.table after.tables).settled[key]? = some value ↔
      (scheme.table scheme.base.tables).settled[key]? = some value ∨
        ∃ result ∈ results, result.key = key ∧ result.value = value
  answered : (scheme.table after.tables).settled[root]? = some value
  value_lt : ∀ result ∈ results, result.value.number < after.arena.size
  bound : Interpretation.Bound scheme.base.arena after.arena results
  history : History (scheme.Rule after) scheme.base.arena after.arena
    (fun key value => (scheme.table scheme.base.tables).settled[key]? = some value)
    (fun key link => scheme.Circular after.arena key ∧
      ∃ result ∈ results, result.key = key ∧ result.link = link) results

section Outermost

variable [LawfulBEq Key]

include lawful

theorem Run.finished (run : scheme.Run ∅ results state)
    (found : (scheme.table state.tables).pending[key]? = some ⟨value, .evaluated⟩)
    (touches : scheme.Touches state after) (sameArena : after.arena = state.arena)
    (isCommitted : scheme.table after.tables = (scheme.table state.tables).commit) :
    scheme.Finished key value results after := by
  obtain ⟨side, later⟩ := lawful.touch run.side touches
  have evaluated : ∀ {key : Key} {entry : Provisional ExprId},
      (scheme.table state.tables).pending[key]? = some entry → entry.phase = .evaluated := by
    intro key entry found
    obtain ⟨value, phase⟩ := entry
    cases phase with
    | running =>
        have onStack := (run.running_iff key).mpr ⟨value, found⟩
        simp at onStack
    | evaluated => rfl
    | carried => exact absurd rfl (run.fresh found).2
  have settled : ∀ key : Key, (scheme.table after.tables).settled[key]? =
      (((scheme.table state.tables).pending[key]?).map Provisional.value).or
        (scheme.table scheme.base.tables).settled[key]? := by
    intro key
    rw [isCommitted, Table.settled_commit, run.settled_eq]
  refine ⟨touches.wellFormed, touches.fromBase, side, lawful.later_trans run.later later, ?_, ?_, ?_,
    ?_, ?_, ?_, ?_⟩
  · intro key
    rw [isCommitted, Table.pending_commit]
  · rw [isCommitted]
    exact run.strategy_eq
  · intro key value
    rw [settled, ← run.evaluated_iff]
    cases entry : (scheme.table state.tables).pending[key]? with
    | none => simp
    | some entry' =>
        obtain ⟨value', phase⟩ := entry'
        have isEvaluated := evaluated entry
        dsimp only at isEvaluated
        simp [(run.fresh entry).1, isEvaluated]
  · rw [settled, found]
    rfl
  · rw [sameArena]
    exact run.value_lt
  · rw [sameArena]
    exact run.bound
  · refine run.history.mono touches.grows (fun key link linked => ?_) fun more rule =>
      lawful.rule_mono later more rule
    obtain ⟨circular, running | result⟩ := linked
    · have onStack := (run.running_iff key).mpr ⟨link, running⟩
      simp at onStack
    · exact ⟨circular.grows lawful touches.grows, result⟩

variable [DecidableEq Key]

/-- An outermost call answers, and what it leaves behind is the work of the rule. -/
theorem yields_solve (wellFormed : scheme.base.arena.WellFormed) (side : scheme.Side scheme.base)
    (singlePass : (scheme.table scheme.base.tables).strategy = .singlePass)
    (idle : ∀ key : Key, (scheme.table scheme.base.tables).pending[key]? = none)
    (valid : scheme.Valid scheme.base.arena key)
    (enough : scheme.weight * scheme.keys.card + scheme.rank key < fuel) :
    (scheme.function.solve fuel key).Yields scheme.base fun value after =>
      ∃ results, scheme.Finished key value results after := by
  have run := run_base wellFormed side (lawful.later_refl _) singlePass idle
  obtain ⟨fuel, rfl⟩ : ∃ rest, fuel = rest + 1 := ⟨fuel - 1, by omega⟩
  rcases (scheme.table scheme.base.tables).lookup_cases key with
    ⟨value, settled, isKnown⟩ | ⟨_, value, running, _⟩ | ⟨_, value, evaluated, _⟩ |
    ⟨fresh, unevaluated, isUnknown⟩
  · refine (Recursion.yields_solve_known isKnown).mpr ⟨[], ?_⟩
    exact
      { wellFormed := wellFormed
        fromBase := .refl _
        side := side
        later := lawful.later_refl _
        idle := idle
        strategy_eq := singlePass
        settled_iff := by simp
        answered := settled
        value_lt := by simp
        bound := run.bound
        history := .nil }
  · simp [idle] at running
  · simp [idle] at evaluated
  · have notInUse : (scheme.table scheme.base.tables).inUse = false := Table.not_inUse_iff.mpr idle
    refine (Recursion.yields_solve_outermost isUnknown notInUse).mpr ?_
    change Yields (liftM reserve : Eval Grammar ExprId) scheme.base _
    rw [yields_lift]
    let link := scheme.base.arena.reserve.1
    let started : Grammar :=
      { scheme.base with
        arena := scheme.base.arena.reserve.2
        tables := scheme.modifyTable (fun table => table.startPasses.start key link)
          scheme.base.tables }
    have isTable : scheme.table started.tables =
        (scheme.table scheme.base.tables).startPasses.start key link :=
      lawful.isField.table_modify _ _
    have touches : scheme.Touches scheme.base started := touches_started run _
    have sameSettled : (scheme.table scheme.base.tables).startPasses.settled =
        (scheme.table scheme.base.tables).settled := rfl
    obtain ⟨run', ahead⟩ :=
      run.start lawful sameSettled rfl rfl fresh (idle key) touches rfl isTable
    have onTop : (scheme.table started.tables).pending[key]? = some ⟨link, .running⟩ := by
      rw [isTable, Table.pending_start_self]
      unfold Table.initial
      rw [show (scheme.table scheme.base.tables).startPasses.pending[key]? = none from idle key]
      rfl
    have singlePass' : (scheme.table started.tables).strategy = .singlePass := by
      rw [isTable]
      exact singlePass
    have evaluation := yields_pass lawful (nested lawful fuel) run' (Finset.notMem_empty key)
      (by simp [Above]) onTop (lawful.valid_grows valid ahead.grows wellFormed run'.wellFormed) (by simpa using enough)
    change (scheme.function.passes key (scheme.function.pass fuel key link)
      (scheme.table started.tables).strategy.repetitions).Yields started _
    rw [singlePass']
    change (scheme.function.passes key (scheme.function.pass fuel key link) 0).Yields started _
    refine Recursion.yields_passes_singlePass (evaluation.mono ?_)
    rintro value after ⟨⟨results, run⟩, _, _, _, evaluated, _⟩
    refine ⟨run.strategy_eq, ?_⟩
    exact ⟨results, run.finished lawful evaluated
      ⟨rfl, rfl, ⟨_, rfl⟩, run.wellFormed, .refl _, run.fromBase⟩ rfl
      (lawful.isField.table_modify _ _)⟩

end Outermost

end Residual.Grammar.Scheme

namespace Residual.Grammar

open Memo Eval

variable {Key : Type} [BEq Key] [Hashable Key] {table : Tables → Table Key ExprId}
  {modifyTable : (Table Key ExprId → Table Key ExprId) → Tables → Tables}
  {step : (Key → Eval Grammar ExprId) → Key → Eval Grammar ExprId} {grammar : Grammar} {key : Key}
  {value : ExprId}

/-- A key whose value needs no other values gets it at once. -/
theorem yields_transformation_at_once (isField : Tables.IsField table modifyTable)
    (isUnknown : (table grammar.tables).lookup key = .unknown)
    (notInUse : (table grammar.tables).inUse = false)
    (singlePass : (table grammar.tables).strategy = .singlePass)
    (immediate : ∀ (recur : Key → Eval Grammar ExprId) (state : Grammar),
      state.arena = grammar.arena.reserve.2 →
      (step recur key).Yields state fun answer after => answer = value ∧ after = state)
    (fuel : Nat) :
    ((transformation table modifyTable step).solve (fuel + 1) key).Yields grammar
      fun answer after => answer = value ∧ after.fault = grammar.fault ∧
        ∃ f, after.tables = modifyTable f grammar.tables := by
  refine (Recursion.yields_solve_outermost isUnknown notInUse).mpr ?_
  change Yields (liftM reserve : Eval Grammar ExprId) grammar _
  rw [yields_lift]
  let started : Grammar :=
    { grammar with
      arena := grammar.arena.reserve.2
      tables := modifyTable (fun table => table.startPasses.start key grammar.arena.reserve.1)
        grammar.tables }
  have noRepetition : (table started.tables).strategy.repetitions = 0 := by
    rw [isField.table_modify]
    change (table grammar.tables).strategy.repetitions = 0
    rw [singlePass]
    rfl
  change (Recursion.passes (transformation table modifyTable step) key _
    (table started.tables).strategy.repetitions).Yields started _
  rw [noRepetition, Recursion.passes]
  unfold Recursion.pass
  simp only [yields_bind]
  refine (immediate _ started rfl).mono ?_
  rintro answer _ ⟨rfl, rfl⟩
  change Yields (do let _ ← liftM (bindLink grammar.reserve.1 _); return _) started _
  simp only [yields_bind, yields_lift, yields_pure, yields_modify, yields_get]
  have stable : ¬ (table (modifyTable (Table.record key answer) started.tables)).unstable := by
    have isSinglePass : (table grammar.tables).strategy.iterates = false := by
      rw [singlePass]
      rfl
    rw [isField.table_modify, isField.table_modify]
    simp [Table.unstable, Table.record, Table.start, Table.startPasses, isSinglePass]
  split
  · rename_i isUnstable
    exact absurd isUnstable stable
  · simp only [yields_bind, yields_modify, yields_pure]
    refine ⟨trivial, rfl, Table.commit ∘ Table.record key answer ∘
      fun table => table.startPasses.start key grammar.arena.reserve.1, ?_⟩
    rw [← isField.modify_modify, ← isField.modify_modify]
    rfl

end Residual.Grammar
