import Residual.Proofs.Grammar.NormalForm.Rounds
import Residual.Proofs.Grammar.NormalForm.Steps
import Residual.Proofs.Grammar.Transformation.Passes

/-!
# The course of a simplification

What is known of closed expressions stays known through all that a simplification does: it asks for
heights and equalities, adds expressions, and enters and leaves the expressions that it simplifies.
-/

set_option autoImplicit false

namespace Residual.Grammar

open Memo

variable {base state between after : Grammar} {limit : Nat} {id x y key link value : ExprId}
  {e : Expr ExprId}

/-- What holds throughout a simplification that starts in the grammar `base`. -/
structure Course (limit : Nat) (base state : Grammar) : Prop where
  wellFormed : base.arena.WellFormed
  limited : limit ≤ base.arena.size
  side : SimplificationSide base state
  singlePass : state.tables.simplified.strategy = .singlePass
  inside : ∀ {x y : ExprId}, state.SimplifiesTo x y →
    x.number < base.arena.size ∧ y.number < state.arena.size
  pending : ∀ {x y : ExprId} {phase : Phase},
    state.tables.simplified.pending[x]? = some ⟨y, phase⟩ →
      state.tables.simplified.settled[x]? = none ∧ phase ≠ .carried ∧ y.number < state.arena.size
  /-- Every expression that is being simplified has a link of its own, which is not bound yet. -/
  links : ∀ {key link : ExprId}, state.Running key link →
    state.arena.slot? link = some (.link none) ∧ ∀ {other}, state.Running other link → other = key
  normal : state.Normal limit

/-- What a part of a simplification leaves behind. -/
structure Onwards (limit : Nat) (base state after : Grammar) : Prop where
  course : Course limit base after
  extending : state.arena.Extends after.arena
  retains : state.Retains after
  running_iff : ∀ {key link : ExprId}, after.Running key link ↔ state.Running key link

theorem Onwards.trans (first : Onwards limit base state between)
    (second : Onwards limit base between after) : Onwards limit base state after where
  course := second.course
  extending := first.extending.trans second.extending
  retains := first.retains.trans second.retains
  running_iff := second.running_iff.trans first.running_iff

/-- What is known is in the entries of the table. -/
theorem told_congr (settled_eq : after.tables.simplified.settled = state.tables.simplified.settled)
    (pending_eq : after.tables.simplified.pending = state.tables.simplified.pending) :
    after.SimplifiesTo x y ↔ state.SimplifiesTo x y :=
  Table.lookup_eq_known_congr (by rw [settled_eq]) (by rw [pending_eq])

namespace Course

variable (course : Course limit base state)

include course

theorem refl : Onwards limit base state state :=
  ⟨course, .refl _, .refl course.side.wellFormed, .rfl⟩

/-- Nothing is bound in the arena that was there before. -/
theorem closed_iff (inside : id.number < base.arena.size) :
    state.arena.Closed id ↔ base.arena.Closed id := by
  have fromBase := course.side.fromBase
  exact ⟨fun closed => closed.of_extends fromBase course.wellFormed inside,
    fun closed => closed.grows fromBase.grows course.side.wellFormed⟩

/-- The order of what was there before does not change. -/
theorem orderly_iff (inside : id.number < base.arena.size) :
    state.arena.Orderly id ↔ base.arena.Orderly id :=
  course.side.fromBase.orderly_iff course.wellFormed course.side.wellFormed inside

/-- What is known keeps its form while the arena grows. -/
theorem normal_after (side : SimplificationSide base after) (retains : state.Retains after)
    (measures : after.arena.Measures limit after.tables.heights)
    (told : ∀ {x y}, after.SimplifiesTo x y → state.SimplifiesTo x y ∨
      x.number < after.arena.size ∧ (after.arena.Closed x → after.Entry x y) ∧
        (after.arena.Orderly x → after.Becomes x y))
    (running : ∀ {key link}, state.Running key link → after.Running key link ∨
      ∃ value, after.SimplifiesTo key value ∧ after.arena.resolve link = after.arena.resolve value)
    (finished : ∀ {key link value}, state.Running key link → ¬ after.Running key link →
      after.SimplifiesTo key value → state.arena.Orderly key →
      key.number < state.arena.size → after.TurnsInto key value) :
    after.Normal limit where
  measures := measures
  tracked isTold orderly := by
    rcases told isTold with wasTold | ⟨_, _, becomes⟩
    · have inside := (course.inside wasTold).1
      have orderly := (course.orderly_iff inside).mpr
        ((side.fromBase.orderly_iff course.wellFormed side.wellFormed inside).mp orderly)
      exact (retains.carries course.side.wellFormed running).becomes
        (course.side.fromBase.grows.lt_size inside) orderly finished
        (course.normal.tracked wasTold orderly)
    · exact becomes orderly
  inside isTold := by
    rcases told isTold with wasTold | ⟨inside, _, _⟩
    · exact retains.grows.lt_size (course.normal.inside wasTold)
    · exact inside
  entry isTold closed := by
    rcases told isTold with wasTold | ⟨_, entry, _⟩
    · have inside := (course.inside wasTold).1
      have closed' : state.arena.Closed _ :=
        (course.closed_iff inside).mpr (closed.of_extends side.fromBase course.wellFormed inside)
      exact retains.entry (course.normal.entry wasTold closed') closed'
    · exact entry closed

/-- What is still being simplified stays so. -/
theorem normal_of_told_congr (side : SimplificationSide base after) (retains : state.Retains after)
    (measures : after.arena.Measures limit after.tables.heights)
    (told : ∀ {x y}, after.SimplifiesTo x y → state.SimplifiesTo x y)
    (running : ∀ {key link}, state.Running key link → after.Running key link) :
    after.Normal limit :=
  course.normal_after side retains measures (fun isTold => .inl (told isTold))
    (fun isRunning => .inl (running isRunning))
    fun isRunning ended => absurd (running isRunning) ended

/-- A step does not touch what is known about simplified forms. -/
theorem onwards (side : SimplificationSide base after) (extending : state.arena.Extends after.arena)
    (retains : state.Retains after) (measures : after.arena.Measures limit after.tables.heights)
    (strategy_eq : after.tables.simplified.strategy = state.tables.simplified.strategy)
    (settled_eq : after.tables.simplified.settled = state.tables.simplified.settled)
    (pending_eq : after.tables.simplified.pending = state.tables.simplified.pending) :
    Onwards limit base state after := by
  have told : ∀ {x y}, after.SimplifiesTo x y ↔ state.SimplifiesTo x y :=
    told_congr settled_eq pending_eq
  have running : ∀ {key link}, after.Running key link ↔ state.Running key link := by
    unfold Running
    rw [pending_eq]
  refine ⟨⟨course.wellFormed, course.limited, side, strategy_eq.trans course.singlePass,
    ?_, ?_, ?_, ?_⟩, extending, retains, running⟩
  · intro x y isTold
    obtain ⟨inside, inside'⟩ := course.inside (told.mp isTold)
    exact ⟨inside, retains.grows.lt_size inside'⟩
  · intro x y phase found
    rw [pending_eq] at found
    obtain ⟨fresh, finished, inside⟩ := course.pending found
    exact ⟨settled_eq ▸ fresh, finished, retains.grows.lt_size inside⟩
  · intro key link isRunning
    obtain ⟨unbound, own⟩ := course.links (running.mp isRunning)
    exact ⟨(extending _ (Arena.lt_size_of_slot? unbound)).trans unbound,
      fun isRunning' => own (running.mp isRunning')⟩
  · exact course.normal_of_told_congr side retains measures told.mp running.mpr

/-- An analysis changes its own table only. -/
theorem onwards_of_tables {heights : Table ExprId Nat} {equalities : Table (ExprId × ExprId) Bool}
    (arena : after.arena = state.arena)
    (tables : after.tables = { state.tables with heights, equalities })
    (heightens : state.arena.Heightens state.tables.heights heights)
    (lasts : state.tables.equalities.Lasts equalities)
    (sound : state.arena.EqualitySound equalities)
    (distinguishes : ∀ limit, state.Distinguishes limit →
      state.arena.Distinguishes limit equalities) :
    Onwards limit base state after := by
  have side := course.side
  have isHeights : after.tables.heights = heights := by rw [tables]
  have isEqualities : after.tables.equalities = equalities := by rw [tables]
  rw [← isHeights] at heightens
  rw [← isEqualities] at lasts sound distinguishes
  refine course.onwards ?_ (arena ▸ .refl _)
    (.of_heightens side.wellFormed arena heightens lasts (told_congr ?_ ?_).mpr) ?_ ?_ ?_ ?_
  · refine ⟨arena ▸ side.wellFormed, arena ▸ side.fromBase, arena ▸ sound,
      fun limit limited fromBase => ?_, heightens.idle⟩
    unfold Distinguishes
    rw [arena]
    exact distinguishes limit (side.distinguishes limit limited fromBase)
  case refine_4 =>
    rw [arena]
    exact heightens.measures limit course.normal.measures
  all_goals rw [tables]

theorem ensures_height (inside : id.number < state.arena.size) :
    Ensures (computeHeight id) state fun value after => Onwards limit base state after ∧
      after.arena = state.arena ∧
      after.tables.heights.settled[state.arena.resolve id]? = some value := by
  have side := course.side
  refine (yields_computeHeight side.wellFormed side.heights inside).ensures.mono ?_
  rintro value after ⟨⟨heights, tables, heightens, settled⟩, _, arena, _⟩
  refine ⟨course.onwards_of_tables arena tables heightens (.refl _) side.equalities
    fun _ distinguishes => distinguishes, arena, ?_⟩
  rw [tables]
  exact settled

theorem ensures_equal (inside : x.number < state.arena.size)
    (inside' : y.number < state.arena.size) :
    Ensures (computeEqual x y) state fun value after => Onwards limit base state after ∧
      after.arena = state.arena ∧ after.tables.equalities.settled[Arena.unorderedPair
        (state.arena.resolve x) (state.arena.resolve y)]? = some value := by
  have side := course.side
  refine (yields_computeEqual side.wellFormed side.equalities inside inside').ensures.mono ?_
  rintro value after ⟨⟨equalities, tables, sound, _, _, distinguishes, lasts, settled⟩, _, arena, _⟩
  refine ⟨course.onwards_of_tables arena tables (.refl side.heights) lasts sound
    distinguishes, arena, ?_⟩
  rw [tables]
  exact settled

/-! ## Changes of the arena and of the table -/

/-- Where the arena grows, what is known of heights and equalities stays known. -/
theorem retains_of_touches (touches : (simplification base).Touches state after)
    (told : ∀ {x y}, state.SimplifiesTo x y → after.SimplifiesTo x y) :
    state.Retains after ∧ after.arena.Measures limit after.tables.heights := by
  have side := course.side
  obtain ⟨f, tables⟩ := touches.tables
  have heights : after.tables.heights = state.tables.heights := by rw [tables]; rfl
  have equalities : after.tables.equalities = state.tables.equalities := by rw [tables]; rfl
  refine ⟨.of_grows touches.grows touches.wellFormed heights equalities told, ?_⟩
  rw [heights]
  exact course.normal.measures.grows touches.grows
    (side.fromBase.agree_both touches.fromBase course.limited) side.wellFormed touches.wellFormed

/-- A step adds something to the arena, or sets a mark of the table. -/
theorem onwards_of_touches (touches : (simplification base).Touches state after)
    (extending : state.arena.Extends after.arena)
    (strategy_eq : after.tables.simplified.strategy = state.tables.simplified.strategy)
    (settled_eq : after.tables.simplified.settled = state.tables.simplified.settled)
    (pending_eq : after.tables.simplified.pending = state.tables.simplified.pending) :
    Onwards limit base state after := by
  obtain ⟨retains, measures⟩ :=
    course.retains_of_touches touches (told_congr settled_eq pending_eq).mpr
  exact course.onwards (simplification_touch course.side touches).1 extending retains measures
    strategy_eq settled_eq pending_eq

theorem ensures_push (operands : ∀ o ∈ e.operands, o.number < state.arena.size) :
    Ensures (liftM (push e) : Eval Grammar ExprId) state fun value after =>
      Onwards limit base state after ∧ value.number < after.arena.size ∧
        after.arena.slot? value = some (.expr e) ∧ value = (state.arena.push e).1 := by
  rw [Eval.ensures_lift]
  have wellFormed := course.side.wellFormed
  have extending := Arena.extends_push state.arena e
  have found := Arena.slot?_push wellFormed e
  have touches : (simplification base).Touches state
      { state with arena := (state.arena.push e).2 } :=
    ⟨rfl, rfl, ⟨id, rfl⟩, wellFormed.push operands, extending.grows,
      course.side.fromBase.trans extending⟩
  exact ⟨course.onwards_of_touches touches extending rfl rfl rfl, Arena.lt_size_of_slot? found,
    found, rfl⟩

/-- Marks of the table say nothing about simplified forms. -/
theorem mark {f : Table ExprId ExprId → Table ExprId ExprId}
    (strategy_eq : ∀ table, (f table).strategy = table.strategy)
    (settled_eq : ∀ table, (f table).settled = table.settled)
    (pending_eq : ∀ table, (f table).pending = table.pending) :
    Onwards limit base state (state.changeTable (simplification base).modifyTable f) :=
  course.onwards_of_touches ⟨rfl, rfl, ⟨f, rfl⟩, course.side.wellFormed, .refl _,
    course.side.fromBase⟩ (.refl _) (strategy_eq _) (settled_eq _) (pending_eq _)

theorem not_told_of_running (running : state.Running key link) :
    ¬ state.SimplifiesTo key value := by
  intro told
  obtain ⟨fresh, _, _⟩ := course.pending running
  rcases Table.lookup_eq_known_iff.mp told with settled | ⟨_, evaluated⟩
  · cases fresh.symm.trans settled
  · cases evaluated.symm.trans running

end Course

/-! ## Entering and leaving -/

/-- The state in which the evaluation of a key begins. -/
structure Entered (limit : Nat) (base : Grammar) (key : ExprId) (state entered : Grammar) :
    Prop where
  course : Course limit base entered
  extending : state.arena.Extends entered.arena
  retains : state.Retains entered
  unbound : entered.arena.slot? state.arena.reserve.1 = some (.link none)
  running : entered.Running key state.arena.reserve.1
  fresh : ∀ link, ¬ state.Running key link
  others : ∀ {other link}, other ≠ key → (entered.Running other link ↔ state.Running other link)

theorem Course.enter (course : Course limit base state) (inside : key.number < base.arena.size)
    (isUnknown : state.tables.simplified.lookup key = .unknown) :
    Entered limit base key state (state.enter (simplification base).modifyTable key) := by
  have wellFormed := course.side.wellFormed
  have extending := Arena.extends_reserve state.arena
  have touches : (simplification base).Touches state
      (state.enter (simplification base).modifyTable key) :=
    ⟨rfl, rfl, ⟨_, rfl⟩, wellFormed.reserve, extending.grows, course.side.fromBase.trans extending⟩
  have told : ∀ {x y}, (state.enter (simplification base).modifyTable key).SimplifiesTo x y ↔
      state.SimplifiesTo x y := Table.lookup_start isUnknown
  obtain ⟨retains, measures⟩ := course.retains_of_touches touches told.mpr
  have side := (simplification_touch course.side touches).1
  obtain ⟨settled, none⟩ : state.tables.simplified.settled[key]? = none ∧
      state.tables.simplified.pending[key]? = none := by
    rcases state.tables.simplified.lookup_cases key with ⟨_, _, isKnown⟩ | ⟨_, _, _, isKnown⟩ |
      ⟨_, _, _, isKnown⟩ | ⟨settled, carried, _⟩
    · cases isUnknown.symm.trans isKnown
    · cases isUnknown.symm.trans isKnown
    · cases isUnknown.symm.trans isKnown
    · refine ⟨settled, ?_⟩
      cases found : state.tables.simplified.pending[key]? with
      | none => rfl
      | some entry => exact absurd (carried _ _ found) (course.pending found).2.1
  have here : (state.enter (simplification base).modifyTable key).Running key
      state.arena.reserve.1 := by
    change (Table.start key _ state.tables.simplified).pending[key]? = _
    rw [Table.pending_start_self, Table.initial, none]
    rfl
  have others : ∀ {other link}, other ≠ key →
      ((state.enter (simplification base).modifyTable key).Running other link ↔
        state.Running other link) := fun distinct => Eq.congr_left (Table.pending_start_of_ne distinct)
  have isNew : ∀ {other link}, state.Running other link → link ≠ state.arena.reserve.1 := by
    rintro other _ running rfl
    exact absurd (course.pending running).2.2 (Nat.lt_irrefl _)
  have isFresh : ∀ link, ¬ state.Running key link := by
    intro link running
    cases none.symm.trans running
  refine ⟨⟨course.wellFormed, course.limited, side, course.singlePass, fun isTold => ?_, ?_, ?_, ?_⟩,
    extending, retains, Arena.slot?_reserve state.arena, here, isFresh, others⟩
  · obtain ⟨inside, inside'⟩ := course.inside (told.mp isTold)
    exact ⟨inside, retains.grows.lt_size inside'⟩
  · intro other value phase found
    by_cases same : other = key
    · subst same
      cases here.symm.trans found
      exact ⟨settled, by simp, Arena.lt_size_of_slot? (Arena.slot?_reserve state.arena)⟩
    · have found' := (Table.pending_start_of_ne same).symm.trans found
      obtain ⟨fresh, finished, inside⟩ := course.pending found'
      exact ⟨fresh, finished, retains.grows.lt_size inside⟩
  · intro other link running
    by_cases same : other = key
    · subst same
      cases here.symm.trans running
      refine ⟨Arena.slot?_reserve state.arena, fun {other'} running' => ?_⟩
      by_contra distinct
      exact isNew ((others distinct).mp running') rfl
    · have wasRunning := (others same).mp running
      obtain ⟨unbound, own⟩ := course.links wasRunning
      refine ⟨(extending _ (Arena.lt_size_of_slot? unbound)).trans unbound, ?_⟩
      intro other' running'
      by_cases same' : other' = key
      · subst same'
        cases here.symm.trans running'
        exact absurd rfl (isNew wasRunning)
      · exact own ((others same').mp running')
  · refine course.normal_of_told_congr side retains measures told.mp fun {other link} running => ?_
    refine (others ?_).mpr running
    rintro rfl
    exact isFresh link running

section Left

variable (left : after = between.leave (simplification base).modifyTable key link value)

include left

theorem told_left_of_ne (distinct : x ≠ key) :
    after.SimplifiesTo x y ↔ between.SimplifiesTo x y := by
  subst left
  exact Table.lookup_record_of_ne distinct

theorem pending_left_of_ne (distinct : x ≠ key) :
    after.tables.simplified.pending[x]? = between.tables.simplified.pending[x]? := by
  subst left
  exact Table.pending_record_of_ne distinct

theorem pending_left : after.tables.simplified.pending[key]? = some ⟨value, .evaluated⟩ := by
  subst left
  exact Table.pending_record_self

theorem settled_left :
    after.tables.simplified.settled = between.tables.simplified.settled := by
  subst left
  rfl

variable (fresh : between.tables.simplified.settled[key]? = none)

include fresh

/-- The simplified form of a key is known when it is left. -/
theorem told_left : after.SimplifiesTo key value := by
  subst left
  exact Table.lookup_record_self fresh

/-- Nothing else is found out by leaving it. -/
theorem told_left_cases (told : after.SimplifiesTo x y) :
    between.SimplifiesTo x y ∨ x = key ∧ y = value := by
  by_cases same : x = key
  · subst same
    cases (told_left left fresh : Table.lookup _ _ = _).symm.trans told
    exact .inr ⟨rfl, rfl⟩
  · exact .inl ((told_left_of_ne left same).mp told)

end Left

/-- The evaluation of a key ends with its simplified form. -/
theorem Entered.leave {entered : Grammar} (entering : Entered limit base key state entered)
    (onwards : Onwards limit base entered between) (isKey : key.number < base.arena.size)
    (fromBase : base.arena.Extends state.arena)
    (inside : value.number < between.arena.size)
    (entry : base.arena.Closed key → between.Entry key value)
    (becomes : base.arena.Orderly key → between.Becomes key value)
    (left : after =
      between.leave (simplification base).modifyTable key state.arena.reserve.1 value) :
    Onwards limit base state after ∧ after.SimplifiesTo key value ∧ between.Retains after := by
  have course := onwards.course
  have wellFormed := course.side.wellFormed
  have running : between.Running key state.arena.reserve.1 :=
    onwards.running_iff.mpr entering.running
  have unbound : between.arena.slot? state.arena.reserve.1 = some (.link none) :=
    (onwards.extending _ (Arena.lt_size_of_slot? entering.unbound)).trans entering.unbound
  have fresh := (course.pending running).1
  have extending : state.arena.Extends (between.arena.bind state.arena.reserve.1 value).2 := by
    refine (entering.extending.trans onwards.extending).trans_of_agree fun id isOld => ?_
    refine Arena.slot?_bind_of_ne value unbound ?_
    rintro rfl
    exact absurd isOld (Nat.lt_irrefl _)
  have touches : (simplification base).Touches between after := by
    subst left
    exact ⟨rfl, rfl, ⟨_, rfl⟩, wellFormed.bind value unbound inside,
      Arena.grows_bind value unbound, fromBase.trans extending⟩
  obtain ⟨retains, measures⟩ := course.retains_of_touches touches fun {x y} told => by
    by_cases same : x = key
    · subst same
      exact absurd told (course.not_told_of_running running)
    · exact (told_left_of_ne left same).mpr told
  have side := (simplification_touch course.side touches).1
  have singlePass : after.tables.simplified.strategy = .singlePass := by
    subst left
    exact course.singlePass
  have isTold := told_left left fresh
  have ended : ∀ {link}, ¬ after.Running key link := by
    intro link isRunning
    cases (pending_left left).symm.trans isRunning
  have others : ∀ {other link}, other ≠ key → (after.Running other link ↔ between.Running other link) :=
    fun distinct => Eq.congr_left (pending_left_of_ne left distinct)
  have isLink : ∀ {link}, between.Running key link → link = state.arena.reserve.1 := by
    intro link isRunning
    cases running.symm.trans isRunning
    rfl
  have sameEnd : after.arena.resolve state.arena.reserve.1 = after.arena.resolve value := by
    subst left
    exact wellFormed.resolve_bind_link value unbound inside
  have carries : between.Carries after := by
    refine retains.carries wellFormed fun {other link} isRunning => ?_
    by_cases same : other = key
    · subst same
      exact .inr ⟨value, isTold, isLink isRunning ▸ sameEnd⟩
    · exact .inl ((others same).mpr isRunning)
  have isInside : key.number < between.arena.size := course.side.fromBase.grows.lt_size isKey
  -- What stood for its own link is `∅` now.
  have becomes : between.arena.Orderly key → after.Becomes key value := by
    intro orderly
    obtain ⟨turns, hardens⟩ := becomes ((course.orderly_iff isKey).mp orderly)
    refine ⟨?_, carries.hardens isInside orderly.defined hardens⟩
    rcases carries.turns_or_finished isInside orderly turns
      with turns | ⟨other, link, _, isRunning, hasEnded, same⟩
    · exact turns
    · obtain rfl : other = key := by
        by_contra distinct
        exact hasEnded ((others distinct).mpr isRunning)
      obtain rfl := isLink isRunning
      have itself := same.trans (Arena.resolve_of_final (by simp [unbound]))
      refine .closed ?_
      rw [← sameEnd]
      subst left
      change Arena.Closed _ ((between.arena.bind _ value).2.resolve _)
      rw [wellFormed.resolve_bind_itself value unbound inside itself]
      exact carries.wellFormed'.closed_nil
  refine ⟨⟨⟨course.wellFormed, course.limited, side, singlePass, fun told => ?_, ?_, ?_, ?_⟩, ?_,
    (entering.retains.trans onwards.retains).trans retains, ?_⟩, isTold, retains⟩
  · rcases told_left_cases left fresh told with wasTold | ⟨rfl, rfl⟩
    · obtain ⟨inside, inside'⟩ := course.inside wasTold
      exact ⟨inside, retains.grows.lt_size inside'⟩
    · exact ⟨isKey, retains.grows.lt_size inside⟩
  · intro other value' phase found
    by_cases same : other = key
    · subst same
      cases (pending_left left).symm.trans found
      exact ⟨settled_left left ▸ fresh, nofun, retains.grows.lt_size inside⟩
    · have found' := (pending_left_of_ne left same).symm.trans found
      obtain ⟨fresh, finished, inside⟩ := course.pending found'
      exact ⟨settled_left left ▸ fresh, finished, retains.grows.lt_size inside⟩
  · intro other link isRunning
    have distinct : other ≠ key := by
      rintro rfl
      exact ended isRunning
    have isRunning := (others distinct).mp isRunning
    obtain ⟨stillUnbound, own⟩ := course.links isRunning
    have otherLink : link ≠ state.arena.reserve.1 := by
      rintro rfl
      exact distinct (own running).symm
    refine ⟨?_, fun {other'} isRunning' => ?_⟩
    · subst left
      exact (Arena.slot?_bind_of_ne value unbound otherLink).trans stillUnbound
    · refine own ((others ?_).mp isRunning')
      rintro rfl
      exact ended isRunning'
  · refine course.normal_after side retains measures (fun told => ?_) (carries.running ·)
      fun {other link value'} isRunning hasEnded told orderly _ => ?_
    · rcases told_left_cases left fresh told with wasTold | ⟨rfl, rfl⟩
      · exact .inl wasTold
      · refine .inr ⟨side.fromBase.grows.lt_size isKey, fun closed => ?_, fun orderly => ?_⟩
        · have closed := closed.of_extends side.fromBase course.wellFormed isKey
          exact retains.entry (entry closed) ((course.closed_iff isKey).mpr closed)
        · exact becomes ((course.orderly_iff isKey).mpr
            ((side.fromBase.orderly_iff course.wellFormed side.wellFormed isKey).mp orderly))
    · obtain rfl : other = key := by
        by_contra distinct
        exact hasEnded ((others distinct).mpr isRunning)
      cases (isTold : Table.lookup _ _ = _).symm.trans told
      exact (becomes orderly).turns
  · subst left
    exact extending
  · intro other link
    by_cases same : other = key
    · subst same
      exact iff_of_false ended (entering.fresh link)
    · exact (others same).trans (onwards.running_iff.trans (entering.others same))

/-- When no key is being evaluated any more, what is known is settled. -/
theorem Onwards.commit {committed : Grammar} (onwards : Onwards limit base state after)
    (idle : ∀ key link, ¬ state.Running key link)
    (isCommitted : committed = after.changeTable (simplification base).modifyTable Table.commit) :
    Onwards limit base state committed ∧
      ∀ {x y}, committed.SimplifiesTo x y ↔ after.SimplifiesTo x y := by
  subst isCommitted
  have course := onwards.course
  have touches : (simplification base).Touches after
      (after.changeTable (simplification base).modifyTable Table.commit) :=
    ⟨rfl, rfl, ⟨_, rfl⟩, course.side.wellFormed, .refl _, course.side.fromBase⟩
  have told : ∀ {x y}, SimplifiesTo (after.changeTable (simplification base).modifyTable
      Table.commit) x y ↔ after.SimplifiesTo x y := by
    intro x y
    refine Table.lookup_commit fun {entry} found => ?_
    obtain ⟨fresh, finished, _⟩ := course.pending found
    obtain ⟨link, phase⟩ := entry
    cases phase with
    | running => exact absurd (onwards.running_iff.mp found) (idle _ _)
    | evaluated => exact ⟨fresh, rfl⟩
    | carried => exact absurd rfl finished
  obtain ⟨retains, measures⟩ := course.retains_of_touches touches told.mpr
  have side := (simplification_touch course.side touches).1
  refine ⟨⟨⟨course.wellFormed, course.limited, side, course.singlePass,
    fun isTold => course.inside (told.mp isTold), ?_, ?_, ?_⟩, onwards.extending,
    onwards.retains.trans retains, ?_⟩, told⟩
  · intro other value phase found
    cases Table.pending_commit.symm.trans found
  · intro other link running
    cases Table.pending_commit.symm.trans running
  · exact course.normal_of_told_congr side retains measures told.mp fun running =>
      absurd (onwards.running_iff.mp running) (idle _ _)
  · intro other link
    refine iff_of_false (fun running => ?_) (idle other link)
    cases Table.pending_commit.symm.trans running

end Residual.Grammar
