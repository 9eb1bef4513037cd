import Residual.Grammar.Derivative
import Residual.Proofs.Arena.Closed
import Residual.Proofs.Grammar.Derivative.Rules
import Residual.Proofs.Grammar.Nullability
import Residual.Proofs.Grammar.Transformation.Evaluation

/-!
# One derivation step follows the rules

The evaluation of `derivativeStep` for one expression: whatever it asks for and adds to the arena,
its answer was made by `Arena.Derives`.  Questions about empty strings are about expressions that
were there when the outermost call began.
-/

set_option autoImplicit false

namespace Residual

namespace Arena

open Memo

/-- What is known about the empty string in an expression's language. -/
structure IsNullable (arena : Arena) (senses : Sense → Prop) (id : ExprId) (answer : Bool) :
    Prop where
  bound : answer = true → arena.ComplementFree id → [] ∈ Interpretation.words.least arena id
  exact : ∀ sense, senses sense → ∀ lang, arena.Means sense id lang → (answer = true ↔ [] ∈ lang)

variable {arena before after base : Arena} {senses senses' : Sense → Prop} {id : ExprId}
  {answer : Bool} {faultless : Prop}

theorem IsNullable.mono (fewer : ∀ sense, senses' sense → senses sense)
    (isNullable : arena.IsNullable senses id answer) : arena.IsNullable senses' id answer :=
  ⟨isNullable.bound, fun sense trusted => isNullable.exact sense (fewer sense trusted)⟩

theorem NullabilitySound.isNullable {maxPasses : Nat} {table : Table ExprId Bool}
    (sound : arena.NullabilitySound maxPasses table) (wellFormed : arena.WellFormed)
    (settled : table.settled[arena.resolve id]? = some answer) :
    arena.IsNullable table.Trusts id answer where
  bound := by
    rintro rfl free
    rw [← Interpretation.words.least_resolve wellFormed]
    exact sound.nil_mem_least wellFormed settled (wellFormed.throughout_resolve.mpr free)
  exact _ trusted _ means := sound.eq_true_iff_of_means wellFormed settled trusted means

/-- No infinite repetition is derived with the expression, as far as it is not wrongly said that
something may be empty. -/
def Faultless (arena : Arena) (id : ExprId) : Prop :=
  arena.Bounded (fun o => arena.IsNullable (· = .structural) o true) id

/-- The expressions that are derived in a call that starts in the arena `base`: those of `base`,
and the new ones for characters and options. -/
inductive Derivable (base : Arena) (faultless : Prop) (arena : Arena) (id : ExprId) : Prop where
  | old : id.number < base.size → base.resolve id = id → (faultless → base.Faultless id) →
      Derivable base faultless arena id
  | char {c : Char} : base.size ≤ id.number → arena.slot? id = some (.expr (.char c)) →
      Derivable base faultless arena id
  | option {lang : ExprId} : base.size ≤ id.number →
      arena.slot? id = some (.expr (.alt lang .empty)) → lang.number < base.size →
      (faultless → base.Faultless lang) → Derivable base faultless arena id

namespace Derivable

theorem grows (derivable : base.Derivable faultless before id) (growing : before.Grows after) :
    base.Derivable faultless after id := by
  cases derivable with
  | old inside resolved isFaultless => exact .old inside resolved isFaultless
  | char isNew found => exact .char isNew (growing.expr found)
  | option isNew found inside isFaultless =>
      exact .option isNew (growing.expr found) inside isFaultless

/-- What a derived expression stands for does not change. -/
theorem get_eq (derivable : base.Derivable faultless before id) (wellFormed : base.WellFormed)
    (fromBase : base.Extends before) (fromBase' : base.Extends after)
    (growing : before.Grows after) : after.get id = before.get id := by
  cases derivable with
  | old inside _ _ => rw [fromBase.get wellFormed inside, fromBase'.get wellFormed inside]
  | char _ found | option _ found _ _ =>
      rw [get_of_stands (stands_of_expr found), get_of_stands (stands_of_expr (growing.expr found))]

theorem resolve_eq (derivable : base.Derivable faultless arena id) (wellFormed : base.WellFormed)
    (fromBase : base.Extends arena) : arena.resolve id = id := by
  cases derivable with
  | old inside resolved _ => rwa [fromBase.resolve wellFormed inside]
  | char _ found | option _ found _ _ => exact resolve_of_expr found

theorem lt_size (derivable : base.Derivable faultless arena id) (fromBase : base.Extends arena) :
    id.number < arena.size := by
  cases derivable with
  | old inside _ _ => exact fromBase.grows.lt_size inside
  | char _ found | option _ found _ _ => exact lt_size_of_slot? found

/-- The operands of a derived expression were there before. -/
theorem operand_lt (derivable : base.Derivable faultless arena id) (wellFormed : base.WellFormed)
    (fromBase : base.Extends arena) {o : ExprId} (member : o ∈ (arena.get id).operands) :
    o.number < base.size := by
  cases derivable with
  | old inside _ _ =>
      rw [fromBase.get wellFormed inside] at member
      exact wellFormed.operand_lt_of_get member
  | char _ found =>
      rw [get_of_stands (stands_of_expr found)] at member
      simp [Expr.operands] at member
  | option _ found inside _ =>
      rw [get_of_stands (stands_of_expr found)] at member
      rcases List.mem_pair.mp member with rfl | rfl
      · exact inside
      · exact wellFormed.empty_lt_size

/-- The operands that are derived next meet no fault either. -/
theorem operand_faultless (derivable : base.Derivable faultless arena id)
    (wellFormed : base.WellFormed) (fromBase : base.Extends arena) {o : ExprId}
    (exposes : (arena.get id).Exposes (fun o => base.IsNullable (· = .structural) o true) o)
    (excluded : faultless) : base.Faultless o := by
  cases derivable with
  | old inside _ isFaultless =>
      rw [fromBase.get wellFormed inside] at exposes
      exact (bounded_iff.mp (isFaultless excluded)).2 o exposes
  | char _ found =>
      rw [get_of_stands (stands_of_expr found)] at exposes
      cases exposes
  | option _ found _ isFaultless =>
      rw [get_of_stands (stands_of_expr found)] at exposes
      cases exposes with
      | left => exact isFaultless excluded
      | right => exact bounded_of_leaf (by rw [get_of_stands wellFormed.stands_empty]; rfl)

/-- Infinite repetitions are not derived if they were excluded. -/
theorem bounded (derivable : base.Derivable faultless arena id) (wellFormed : base.WellFormed)
    (fromBase : base.Extends arena) (excluded : faultless) (lang : ExprId) :
    arena.get id ≠ .rep lang .infinite := by
  cases derivable with
  | old inside _ isFaultless =>
      rw [fromBase.get wellFormed inside]
      exact (bounded_iff.mp (isFaultless excluded)).1 lang
  | char _ found | option _ found _ _ =>
      rw [get_of_stands (stands_of_expr found)]
      exact nofun

end Derivable

/-- The first expression is above the second one, as far as it is closed, in this arena and in all
that it grows to. -/
def Outweighs (base arena : Arena) (id other : ExprId) : Prop :=
  ∀ later : Arena, base.Extends later → arena.Grows later → later.Closed id →
    later.Closed other ∧ (later.tree other).weight < (later.tree id).weight

theorem Outweighs.grows {other : ExprId} (outweighs : base.Outweighs before id other)
    (growing : before.Grows after) : base.Outweighs after id other :=
  fun later fromBase growing' => outweighs later fromBase (growing.trans growing')

/-- A closed expression is not above itself. -/
theorem Outweighs.not_closed (circular : Relation.TransGen (base.Outweighs arena) id id)
    (fromBase : base.Extends arena) : ¬ arena.Closed id := by
  intro closed
  suffices lighter : ∀ {other}, Relation.TransGen (base.Outweighs arena) id other →
      arena.Closed other ∧ (arena.tree other).weight < (arena.tree id).weight from
    Nat.lt_irrefl _ (lighter circular).2
  intro other path
  induction path with
  | single outweighs => exact outweighs arena fromBase (.refl arena) closed
  | tail _ outweighs inductionHypothesis =>
      obtain ⟨closed, lighter⟩ := inductionHypothesis
      obtain ⟨closed, lighter'⟩ := outweighs arena fromBase (.refl arena) closed
      exact ⟨closed, lighter'.trans lighter⟩

namespace Derivable

variable {other o lang : ExprId} (derivable : base.Derivable faultless before id)
  (wellFormed : base.WellFormed) (fromBase : base.Extends before) (growing : before.Grows arena)

include derivable wellFormed fromBase growing

/-- A derived expression outweighs what its operator outweighs. -/
theorem outweighs (lighter : ∀ {later : Arena}, later.WellFormed → base.Extends later →
    arena.Grows later → (∀ o ∈ (before.get id).operands, later.Closed o) → later.Closed other ∧
      (later.tree other).weight < (Tree.node ((before.get id).map later.tree)).weight) :
    base.Outweighs arena id other := by
  intro later fromBase' growing' closed
  have sameGet := derivable.get_eq wellFormed fromBase fromBase' (growing.trans growing')
  rw [closed.tree_of_get? closed.get?, sameGet]
  refine lighter closed.wellFormed fromBase' growing' fun o member => closed.of_mem ?_
  rwa [sameGet]

theorem outweighs_operand (member : o ∈ (before.get id).operands) :
    base.Outweighs arena id (base.resolve o) := by
  refine derivable.outweighs wellFormed fromBase growing ?_
  intro later wellFormed' fromBase' growing' operands
  have closed := operands o member
  rw [← fromBase'.resolve wellFormed (derivable.operand_lt wellFormed fromBase member),
    closed.tree_resolve]
  refine ⟨closed.resolve, Tree.weight_operand ?_⟩
  change _ ∈ ((before.get id).map later.tree).operands
  rw [Expr.operands_map]
  exact List.mem_map_of_mem member

/-- The characters of ranges and literal strings are lighter. -/
theorem outweighs_atom {e : Expr ExprId} (found : arena.slot? other = some (.expr e))
    (atomic : e.isAtomic = true)
    (heavy : ∀ later : Arena, 0 < (Tree.node ((before.get id).map later.tree)).weight) :
    base.Outweighs arena id other := by
  refine derivable.outweighs wellFormed fromBase growing ?_
  intro later wellFormed' fromBase' growing' operands
  have isLeaf := (Expr.leaf_of_atomic atomic).1
  have found := growing'.expr found
  have closed : later.Closed other := wellFormed'.closed_of_expr found (by simp [isLeaf])
  refine ⟨closed, ?_⟩
  rw [closed.tree_of_expr found, Tree.weight_of_isAtomic]
  · exact heavy later
  · cases e <;> first | rfl | cases atomic

/-- The union that an option is derived as is lighter, although it is new. -/
theorem outweighs_option (isOpt : before.get id = .opt lang)
    (found : arena.slot? other = some (.expr (.alt lang .empty))) :
    base.Outweighs arena id other := by
  refine derivable.outweighs wellFormed fromBase growing ?_
  intro later wellFormed' fromBase' growing' operands
  rw [isOpt] at operands ⊢
  have isLang := operands lang (List.mem_singleton_self lang)
  have found := growing'.expr found
  have closed : later.Closed other := by
    refine wellFormed'.closed_of_expr found fun o member => ?_
    rcases List.mem_pair.mp member with rfl | rfl
    · exact isLang
    · exact wellFormed'.closed_empty
  refine ⟨closed, ?_⟩
  have isTree : later.tree other = .node (.alt (later.tree lang) (.node .empty)) := by
    rw [closed.tree_of_expr found, ← wellFormed'.tree_empty]
    rfl
  rw [isTree]
  exact Nat.lt_succ_self _

end Derivable

end Arena

namespace Grammar

open Memo Eval Scheme

/-- What holds throughout a derivation.  Where infinite repetitions are excluded there is no fault. -/
structure DerivationSide (base : Grammar) (faultless : Prop) (state : Grammar) : Prop where
  wellFormed : state.arena.WellFormed
  nullability :
    base.arena.NullabilitySound base.config.fixpoint.maxPasses state.tables.nullability
  fault : faultless → state.fault = none
  refusal : ∀ error, state.fault = some error → error = .unboundedRepetition

/-- What a derivation leaves as it is. -/
structure DerivationLater (state after : Grammar) : Prop where
  config : after.config = state.config
  fault : after.fault = none → state.fault = none
  tables : ∃ nullability derivatives,
    after.tables = { state.tables with nullability, derivatives }
  truncated : state.tables.nullability.truncated = true →
    after.tables.nullability.truncated = true

theorem DerivationLater.refl (state : Grammar) : DerivationLater state state :=
  ⟨rfl, fun faultless => faultless, ⟨_, _, rfl⟩, fun truncated => truncated⟩

theorem DerivationLater.trans {first second third : Grammar}
    (before : DerivationLater first second) (later : DerivationLater second third) :
    DerivationLater first third where
  config := later.config.trans before.config
  fault faultless := before.fault (later.fault faultless)
  tables := by
    obtain ⟨_, _, same⟩ := before.tables
    obtain ⟨_, _, same'⟩ := later.tables
    exact ⟨_, _, by rw [same', same]⟩
  truncated truncated := later.truncated (before.truncated truncated)

/-- Derivation by a character as a transformation of a grammar.  An infinite repetition leaves a
fault behind. -/
def derivation (base : Grammar) (c : Char) (faultless : Prop) : Scheme Derivation where
  table := Tables.derivatives
  modifyTable f tables := { tables with derivatives := f tables.derivatives }
  step := derivativeStep
  base := base
  Side := DerivationSide base faultless
  Later := DerivationLater
  Rule state arena told key value :=
    key.c = c ∧ base.arena.Derivable faultless arena key.lang ∧
      (state.fault = none → ∀ lang, arena.get key.lang ≠ .rep lang .infinite) ∧
      base.arena.Derives arena (base.arena.IsNullable state.tables.nullability.Trusts)
        (fun id answer => told ⟨id, c⟩ answer) c key.lang (arena.get key.lang) value
  Valid arena key := key.c = c ∧ base.arena.Derivable faultless arena key.lang
  Asks arena key other := base.arena.Outweighs arena key.lang other.lang
  keys := base.arena.ids.image (⟨·, c⟩)
  weight := 2
  rank key := if key.lang.number < base.arena.size then 0 else 1

variable {base state after : Grammar} {id : ExprId} {c : Char} {faultless : Prop}

theorem derivation_isField (base : Grammar) (c : Char) (faultless : Prop) :
    Tables.IsField (derivation base c faultless).table (derivation base c faultless).modifyTable :=
  ⟨fun _ _ => rfl, fun _ _ _ => rfl, fun _ => rfl⟩

theorem derivation_touch (side : DerivationSide base faultless state)
    (touches : (derivation base c faultless).Touches state after) :
    DerivationSide base faultless after ∧ DerivationLater state after := by
  obtain ⟨f, tables⟩ := touches.tables
  have tables : after.tables = { state.tables with derivatives := f state.tables.derivatives } :=
    tables
  refine ⟨⟨touches.wellFormed, ?_, ?_, ?_⟩, touches.config, by rw [touches.fault]; exact id,
    ⟨_, _, tables⟩, ?_⟩
  · rw [tables]
    exact side.nullability
  · rw [touches.fault]
    exact side.fault
  · rw [touches.fault]
    exact side.refusal
  · rw [tables]
    exact fun truncated => truncated

/-! ## What a step asks for -/

section Step

variable {Invariant : Grammar → Prop} {Ahead : Grammar → Grammar → Prop}
  {Holds : Grammar → Derivation → ExprId → Prop}
  (frame : (derivation base c faultless).Frame Invariant Ahead Holds)
  (base_wellFormed : base.arena.WellFormed)

include frame base_wellFormed

theorem yields_nullable (invariant : Invariant state) (inside : id.number < base.arena.size) :
    (computeNullable id).Yields state fun answer after =>
      Onward Invariant Ahead state after ∧
        base.arena.IsNullable after.tables.nullability.Trusts id answer := by
  have side := frame.side invariant
  refine (yields_computeNullable base_wellFormed (frame.fromBase invariant) side.nullability
    inside).mono ?_
  rintro answer after ⟨⟨nullability, tables, sound, truncated, _, settled⟩, config, arena, fault⟩
  have extending : state.arena.Extends after.arena := by
    rw [arena]
    exact .refl _
  have moves : (derivation base c faultless).Moves state after :=
    { wellFormed := by
        rw [arena]
        exact side.wellFormed
      extending := extending
      exprs := fun outside found =>
        absurd (Arena.lt_size_of_slot? (arena ▸ found)) (Nat.not_lt_of_le outside)
      settled_eq := by rw [tables]; rfl
      pending_eq := by rw [tables]; rfl
      strategy_eq := by rw [tables]; rfl
      side :=
        { wellFormed := by rw [arena]; exact side.wellFormed
          nullability := by rwa [tables]
          fault := by rw [fault]; exact side.fault
          refusal := by rw [fault]; exact side.refusal }
      later := ⟨config, by rw [fault]; exact fun faultless => faultless, ⟨_, _, tables⟩,
        by rwa [tables]⟩ }
  obtain ⟨invariant, ahead⟩ := frame.move invariant moves
  refine ⟨⟨invariant, ahead, extending⟩, ?_⟩
  rw [tables]
  exact sound.isNullable base_wellFormed settled

omit base_wellFormed in
/-- A literal string that a step adds. -/
theorem yields_literal {rest : List Char} (invariant : Invariant state) (nonempty : rest ≠ []) :
    (liftM (token (String.ofList rest)) : Eval Grammar ExprId).Yields state fun tail after =>
      Onward Invariant Ahead state after ∧ tail.number < after.arena.size ∧
        after.arena.slot? tail = some (.expr (.literal rest)) := by
  match rest, nonempty with
  | [c], _ =>
      have isChar : token (String.ofList [c]) = char c := by
        unfold token
        rw [String.toList_ofList]
      rw [isChar]
      refine (frame.yields_push (derivation_isField base _ faultless) derivation_touch invariant
        (e := .char c) (List.forall_mem_nil _)).mono ?_
      rintro tail after ⟨onward, inside, found, _⟩
      exact ⟨onward, inside, found⟩
  | c :: c' :: rest, _ =>
      let text := String.ofList (c :: c' :: rest)
      have wellFormed := (frame.wellFormed invariant).intern text
      have extending := (Arena.extends_intern state.arena text).trans
        (Arena.extends_push (state.arena.intern text) (.token text))
      rw [yields_lift]
      have isToken : token text state = (((state.arena.intern text).push (.token text)).1,
          { state with arena := ((state.arena.intern text).push (.token text)).2 }) := by
        unfold token
        rw [String.toList_ofList]
        rfl
      rw [isToken]
      have found := Arena.slot?_push wellFormed (.token text)
      obtain ⟨invariant', ahead⟩ := frame.extend (derivation_isField base _ faultless)
        derivation_touch invariant (wellFormed.push (e := .token text) (List.forall_mem_nil _))
        extending
        fun {id slot} outside found => Arena.exists_expr_of_push
          (show (state.arena.intern text).size ≤ id.number from outside) found
      exact ⟨⟨invariant', ahead, extending⟩, Arena.lt_size_of_slot? found, found⟩

/-- The answer of a step was made by a rule. -/
theorem made_of_derives {value : ExprId} (invariant : Invariant state)
    (derivable : base.arena.Derivable faultless state.arena id) (invariant' : Invariant after)
    (ahead : Ahead state after) (inside : value.number < after.arena.size)
    (bounded : after.fault = none → ∀ lang, state.arena.get id ≠ .rep lang .infinite)
    (derives : base.arena.Derives after.arena (base.arena.IsNullable after.tables.nullability.Trusts)
      (fun id answer => Holds after ⟨id, c⟩ answer) c id (state.arena.get id) value) :
    (derivation base c faultless).Made Invariant Ahead Holds ⟨id, c⟩ state value after := by
  have same := derivable.get_eq base_wellFormed (frame.fromBase invariant)
    (frame.fromBase invariant') (frame.grows ahead)
  rw [← same] at bounded derives
  exact ⟨invariant', ahead, inside, rfl, derivable.grows (frame.grows ahead), bounded, derives⟩

variable {recur : Derivation → Eval Grammar ExprId}
  (asked : ∀ {other state}, Invariant state → (derivation base c faultless).Valid state.arena other →
    (derivation base c faultless).Asks state.arena ⟨id, c⟩ other →
    ⟨id, c⟩ ∈ (derivation base c faultless).keys ∨
      (derivation base c faultless).rank other < (derivation base c faultless).rank ⟨id, c⟩ →
    (recur other).Yields state (Answered Invariant Ahead Holds other state))

include asked

/-- The derivative of an expression that was there before. -/
theorem yields_derive (operand : ExprId) (invariant : Invariant state)
    (inside : operand.number < base.arena.size)
    (isFaultless : faultless → base.arena.Faultless operand)
    (outweighs : base.arena.Outweighs state.arena id (base.arena.resolve operand)) :
    (askOperand (fun id => recur ⟨id, c⟩) operand).Yields state
      (Answered Invariant Ahead Holds ⟨base.arena.resolve operand, c⟩ state) := by
  unfold askOperand
  rw [yields_bind, yields_get]
  have same : state.resolve operand = base.arena.resolve operand :=
    (frame.fromBase invariant).resolve base_wellFormed inside
  have resolve_lt := base_wellFormed.resolve_lt inside
  rw [same]
  refine asked invariant ⟨rfl, .old resolve_lt (base_wellFormed.resolve_resolve operand)
    fun excluded => (isFaultless excluded).of_get (base_wellFormed.get_resolve operand).symm⟩
    outweighs ?_
  by_cases old : id.number < base.arena.size
  · exact .inl (Finset.mem_image_of_mem _ (Arena.mem_ids.mpr old))
  · right
    change (if (base.arena.resolve operand).number < base.arena.size then 0 else 1) <
      if id.number < base.arena.size then 0 else 1
    rw [if_pos resolve_lt, if_neg old]
    exact Nat.zero_lt_one

/-- The derivative of a new expression. -/
theorem yields_derive_new {operand : ExprId} (old : id.number < base.arena.size)
    (invariant : Invariant state) (derivable : base.arena.Derivable faultless state.arena operand)
    (outweighs : base.arena.Outweighs state.arena id operand) :
    (askOperand (fun id => recur ⟨id, c⟩) operand).Yields state
      (Answered Invariant Ahead Holds ⟨operand, c⟩ state) := by
  unfold askOperand
  rw [yields_bind, yields_get]
  have same : state.resolve operand = operand :=
    derivable.resolve_eq base_wellFormed (frame.fromBase invariant)
  rw [same]
  exact asked invariant ⟨rfl, derivable⟩ outweighs
    (.inl (Finset.mem_image_of_mem _ (Arena.mem_ids.mpr old)))

/-! ## The operators -/

variable (invariant : Invariant state) (derivable : base.arena.Derivable faultless state.arena id)

omit asked in
include invariant derivable in
/-- An answer about an operand, as it is seen later. -/
theorem holds_operand {o d : ExprId} {between : Grammar} (member : o ∈ (state.arena.get id).operands)
    (invariant' : Invariant after) (ahead : Ahead between after)
    (holds : Holds between ⟨base.arena.resolve o, c⟩ d) :
    Holds after ⟨after.arena.resolve o, c⟩ d := by
  have inside := derivable.operand_lt base_wellFormed (frame.fromBase invariant) member
  rw [(frame.fromBase invariant').resolve base_wellFormed inside]
  exact frame.keep ahead _ _ holds

omit asked in
include invariant derivable in
/-- An operand in a later state. -/
theorem operand_lt_later {o : ExprId} (member : o ∈ (state.arena.get id).operands)
    (invariant' : Invariant after) : o.number < after.arena.size :=
  (frame.fromBase invariant').grows.lt_size
    (derivable.operand_lt base_wellFormed (frame.fromBase invariant) member)

include invariant derivable

omit frame base_wellFormed asked invariant in
/-- An expression of another kind was there before. -/
theorem lt_size_of_get (noChar : ∀ c, state.arena.get id ≠ .char c)
    (noOption : ∀ lang, state.arena.get id ≠ .alt lang .empty) : id.number < base.arena.size := by
  cases derivable with
  | old inside _ _ => exact inside
  | char _ found => exact absurd (Arena.get_of_stands (Arena.stands_of_expr found)) (noChar _)
  | option _ found _ _ =>
      exact absurd (Arena.get_of_stands (Arena.stands_of_expr found)) (noOption _)

/-- The derivative of an operand. -/
theorem yields_derive_operand {o : ExprId} {between : Grammar} (between_invariant : Invariant between)
    (ahead : Ahead state between)
    (exposes : (state.arena.get id).Exposes
      (fun o => base.arena.IsNullable (· = .structural) o true) o) :
    (askOperand (fun id => recur ⟨id, c⟩) o).Yields between
      (Answered Invariant Ahead Holds ⟨base.arena.resolve o, c⟩ between) :=
  have fromBase := frame.fromBase invariant
  yields_derive frame base_wellFormed asked o between_invariant
    (derivable.operand_lt base_wellFormed fromBase exposes.mem_operands)
    (derivable.operand_faultless base_wellFormed fromBase exposes)
    (derivable.outweighs_operand base_wellFormed fromBase (frame.grows ahead) exposes.mem_operands)

omit asked in
/-- The last step adds an expression. -/
theorem yields_pushed_derivative {e : Expr ExprId} {between : Grammar}
    (between_invariant : Invariant between) (ahead : Ahead state between)
    (operands : ∀ o ∈ e.operands, o.number < between.arena.size)
    (bounded : ∀ lang, state.arena.get id ≠ .rep lang .infinite)
    (derives : ∀ {value after}, Invariant after → Ahead between after →
      after.arena.slot? value = some (.expr e) →
      base.arena.Derives after.arena (base.arena.IsNullable after.tables.nullability.Trusts)
        (fun id answer => Holds after ⟨id, c⟩ answer) c id (state.arena.get id) value) :
    (liftM (push e) : Eval Grammar ExprId).Yields between
      ((derivation base c faultless).Made Invariant Ahead Holds ⟨id, c⟩ state) := by
  refine (frame.yields_push (derivation_isField base c faultless) derivation_touch between_invariant
    operands).mono ?_
  rintro value after ⟨onward, inside, found, _⟩
  exact made_of_derives frame base_wellFormed invariant derivable onward.invariant
    (frame.trans ahead onward.ahead) inside (fun _ => bounded)
    (derives onward.invariant onward.ahead found)

theorem yields_derive_range {low high : Char} (isRange : state.arena.get id = .range low high) :
    (derivativeStep recur ⟨id, c⟩).Yields state
      ((derivation base c faultless).Made Invariant Ahead Holds ⟨id, c⟩ state) := by
  have fromBase := frame.fromBase invariant
  have old := lt_size_of_get derivable (by simp [isRange]) (by simp [isRange])
  have heavy : ∀ later : Arena,
      0 < (Tree.node ((state.arena.get id).map later.tree)).weight := by
    intro later
    rw [isRange]
    exact Nat.zero_lt_one
  unfold derivativeStep
  simp only [yields_bind, yields_get, show state.get id = _ from isRange]
  split
  · rename_i within
    refine (yields_bind _ _ _).mpr ((frame.yields_push (derivation_isField base c faultless)
      derivation_touch invariant (e := .char c) (List.forall_mem_nil _)).mono ?_)
    rintro operand between ⟨onward, _, found, rfl⟩
    have outweighs := derivable.outweighs_atom base_wellFormed fromBase (frame.grows onward.ahead)
      found rfl heavy
    refine (yields_derive_new frame base_wellFormed asked old onward.invariant
      (.char fromBase.grows.size_le found) outweighs).mono ?_
    rintro value after ⟨invariant', ahead, inside, holds⟩
    refine made_of_derives frame base_wellFormed invariant derivable invariant'
      (frame.trans onward.ahead ahead) inside (by simp [isRange]) ?_
    rw [isRange]
    exact .inRange within ((frame.grows ahead).expr found) holds
  · rename_i outside
    have outweighs : base.arena.Outweighs state.arena id (base.arena.resolve .nil) := by
      rw [base_wellFormed.resolve_nil]
      exact derivable.outweighs_atom base_wellFormed fromBase (.refl _)
        (frame.wellFormed invariant).nil rfl heavy
    refine (yields_derive frame base_wellFormed asked .nil invariant
      base_wellFormed.nil_lt_size (fun _ => Arena.bounded_of_leaf
        (by rw [Arena.get_of_stands base_wellFormed.stands_nil]; rfl)) outweighs).mono ?_
    rintro value after ⟨invariant', ahead, inside, holds⟩
    rw [base_wellFormed.resolve_nil] at holds
    refine made_of_derives frame base_wellFormed invariant derivable invariant' ahead inside
      (by simp [isRange]) ?_
    rw [isRange]
    exact .outOfRange outside holds

theorem yields_derive_token {text : String} (isToken : state.arena.get id = .token text) :
    (derivativeStep recur ⟨id, c⟩).Yields state
      ((derivation base c faultless).Made Invariant Ahead Holds ⟨id, c⟩ state) := by
  have fromBase := frame.fromBase invariant
  have old := lt_size_of_get derivable (by simp [isToken]) (by simp [isToken])
  have heavy : ∀ later : Arena,
      0 < (Tree.node ((state.arena.get id).map later.tree)).weight := by
    intro later
    rw [isToken]
    exact Nat.zero_lt_one
  unfold derivativeStep
  simp only [yields_bind, yields_get, show state.get id = _ from isToken]
  split
  · rename_i isText
    have outweighs : base.arena.Outweighs state.arena id (base.arena.resolve .empty) := by
      rw [base_wellFormed.resolve_empty]
      exact derivable.outweighs_atom base_wellFormed fromBase (.refl _)
        (frame.wellFormed invariant).empty rfl heavy
    refine (yields_derive frame base_wellFormed asked .empty invariant
      base_wellFormed.empty_lt_size (fun _ => Arena.bounded_of_leaf
        (by rw [Arena.get_of_stands base_wellFormed.stands_empty]; rfl)) outweighs).mono ?_
    rintro value after ⟨invariant', ahead, inside, holds⟩
    rw [base_wellFormed.resolve_empty] at holds
    refine made_of_derives frame base_wellFormed invariant derivable invariant' ahead inside
      (by simp [isToken]) ?_
    rw [isToken]
    exact .noText isText holds
  · rename_i first rest isText
    refine (yields_bind _ _ _).mpr ((frame.yields_push (derivation_isField base c faultless)
      derivation_touch invariant (e := .char first) (List.forall_mem_nil _)).mono ?_)
    rintro operand between ⟨onward, _, found, rfl⟩
    have outweighs := derivable.outweighs_atom base_wellFormed fromBase (frame.grows onward.ahead)
      found rfl heavy
    refine (yields_bind _ _ _).mpr ((yields_derive_new frame base_wellFormed asked old
      onward.invariant (.char fromBase.grows.size_le found) outweighs).mono ?_)
    rintro head between' ⟨invariant', ahead, inside, holds⟩
    have ahead' := frame.trans onward.ahead ahead
    have found := (frame.grows ahead).expr found
    split
    · rename_i isLast
      obtain rfl := List.isEmpty_iff.mp isLast
      refine (yields_pure _ _).mpr
        (made_of_derives frame base_wellFormed invariant derivable invariant' ahead' inside
          (by simp [isToken]) ?_)
      rw [isToken]
      exact .lastChar isText found holds
    · rename_i more
      have nonempty : rest ≠ [] := fun isNil => more (List.isEmpty_iff.mpr isNil)
      refine (yields_bind _ _ _).mpr ((yields_literal frame invariant' nonempty).mono ?_)
      rintro tail between'' ⟨onward', tailInside, isTail⟩
      refine yields_pushed_derivative frame base_wellFormed invariant derivable onward'.invariant
        (frame.trans ahead' onward'.ahead) ?_ (by simp [isToken]) fun invariant ahead isCat => ?_
      · simp [Expr.operands, (frame.grows onward'.ahead).lt_size inside, tailInside]
      · have later := frame.trans onward'.ahead ahead
        rw [isToken]
        exact .text isText nonempty ((frame.grows later).expr found)
          (frame.keep later _ _ holds) ((frame.grows ahead).expr isTail) isCat

theorem yields_derive_alt {left right : ExprId} (isAlt : state.arena.get id = .alt left right) :
    (derivativeStep recur ⟨id, c⟩).Yields state
      ((derivation base c faultless).Made Invariant Ahead Holds ⟨id, c⟩ state) := by
  have inLeft : left ∈ (state.arena.get id).operands := by simp [isAlt, Expr.operands]
  have inRight : right ∈ (state.arena.get id).operands := by simp [isAlt, Expr.operands]
  unfold derivativeStep
  simp only [yields_bind, yields_get, show state.get id = _ from isAlt]
  refine (yields_derive_operand frame base_wellFormed asked invariant derivable invariant
    (frame.refl state) (isAlt ▸ .left left right)).mono ?_
  rintro dl between ⟨invariant', ahead, inside, holds⟩
  refine (yields_derive_operand frame base_wellFormed asked invariant derivable invariant'
    ahead (isAlt ▸ .right left right)).mono ?_
  rintro dr between' ⟨invariant'', ahead', inside', holds'⟩
  refine yields_pushed_derivative frame base_wellFormed invariant derivable invariant''
    (frame.trans ahead ahead') ?_ (by simp [isAlt]) fun invariant''' ahead'' found => ?_
  · simp [Expr.operands, (frame.grows ahead').lt_size inside, inside']
  · rw [isAlt]
    exact .alt (holds_operand frame base_wellFormed invariant derivable inLeft invariant'''
        (frame.trans ahead' ahead'') holds)
      (holds_operand frame base_wellFormed invariant derivable inRight invariant''' ahead'' holds')
      found

theorem yields_derive_cat {first second : ExprId} (isCat : state.arena.get id = .cat first second) :
    (derivativeStep recur ⟨id, c⟩).Yields state
      ((derivation base c faultless).Made Invariant Ahead Holds ⟨id, c⟩ state) := by
  have inFirst : first ∈ (state.arena.get id).operands := by simp [isCat, Expr.operands]
  have inSecond : second ∈ (state.arena.get id).operands := by simp [isCat, Expr.operands]
  have firstOld := derivable.operand_lt base_wellFormed (frame.fromBase invariant) inFirst
  unfold derivativeStep
  simp only [yields_bind, yields_get, show state.get id = _ from isCat]
  refine (yields_derive_operand frame base_wellFormed asked invariant derivable invariant
    (frame.refl state) (isCat ▸ .first first second)).mono ?_
  rintro head between ⟨invariant', ahead, inside, holds⟩
  refine (frame.yields_push (derivation_isField base c faultless) derivation_touch invariant'
    (e := .cat head second) ?_).mono ?_
  · simp [Expr.operands, inside,
      operand_lt_later frame base_wellFormed invariant derivable inSecond invariant']
  rintro cat between' ⟨onward, catInside, isProduct, _⟩
  refine (yields_nullable frame base_wellFormed onward.invariant firstOld).mono ?_
  rintro nullable between'' ⟨onward', isNullable⟩
  have onward := frame.onward_trans onward onward'
  have isProduct := onward'.extending.grows.expr isProduct
  have catInside := onward'.extending.grows.lt_size catInside
  cases nullable with
  | false =>
      refine (yields_pure _ _).mpr (made_of_derives frame base_wellFormed invariant derivable
        onward.invariant (frame.trans ahead onward.ahead) catInside (by simp [isCat]) ?_)
      rw [isCat]
      exact .cat (holds_operand frame base_wellFormed invariant derivable inFirst onward.invariant
        onward.ahead holds) isNullable isProduct
  | true =>
      refine (yields_bind _ _ _).mpr ((yields_derive_operand frame base_wellFormed asked invariant
        derivable onward.invariant (frame.trans ahead onward.ahead)
        (isCat ▸ .second second (isNullable.mono fun _ isStructural => by
          rw [isStructural]
          rintro ⟨⟩))).mono ?_)
      rintro tail between''' ⟨invariant'', ahead', tailInside, holds'⟩
      refine yields_pushed_derivative frame base_wellFormed invariant derivable invariant''
        (frame.trans (frame.trans ahead onward.ahead) ahead') ?_ (by simp [isCat])
        fun invariant''' ahead'' found => ?_
      · simp [Expr.operands, (frame.grows ahead').lt_size catInside, tailInside]
      · have later := frame.trans ahead' ahead''
        rw [isCat]
        exact .catNullable (holds_operand frame base_wellFormed invariant derivable inFirst
            invariant''' (frame.trans onward.ahead later) holds)
          (isNullable.mono fun _ trusted => trusted.of_later (frame.later later).truncated)
          ((frame.grows later).expr isProduct)
          (holds_operand frame base_wellFormed invariant derivable inSecond invariant''' ahead''
            holds') found

theorem yields_derive_not {lang : ExprId} (isNot : state.arena.get id = .not lang) :
    (derivativeStep recur ⟨id, c⟩).Yields state
      ((derivation base c faultless).Made Invariant Ahead Holds ⟨id, c⟩ state) := by
  have member : lang ∈ (state.arena.get id).operands := by simp [isNot, Expr.operands]
  unfold derivativeStep
  simp only [yields_bind, yields_get, show state.get id = _ from isNot]
  refine (yields_derive_operand frame base_wellFormed asked invariant derivable invariant
    (frame.refl state) (isNot ▸ .not lang)).mono ?_
  rintro rest between ⟨invariant', ahead, inside, holds⟩
  refine yields_pushed_derivative frame base_wellFormed invariant derivable invariant' ahead
    (by simpa [Expr.operands] using inside) (by simp [isNot]) fun invariant'' ahead' found => ?_
  rw [isNot]
  exact .not (holds_operand frame base_wellFormed invariant derivable member invariant'' ahead'
    holds) found

theorem yields_derive_opt {lang : ExprId} (isOpt : state.arena.get id = .opt lang) :
    (derivativeStep recur ⟨id, c⟩).Yields state
      ((derivation base c faultless).Made Invariant Ahead Holds ⟨id, c⟩ state) := by
  have member : lang ∈ (state.arena.get id).operands := by simp [isOpt, Expr.operands]
  have fromBase := frame.fromBase invariant
  have old := lt_size_of_get derivable (by simp [isOpt]) (by simp [isOpt])
  have langOld := derivable.operand_lt base_wellFormed fromBase member
  unfold derivativeStep
  simp only [yields_bind, yields_get, show state.get id = _ from isOpt]
  refine (frame.yields_push (derivation_isField base c faultless) derivation_touch invariant
    (e := .alt lang .empty) ?_).mono ?_
  · simp [Expr.operands, fromBase.grows.lt_size langOld,
      fromBase.grows.lt_size base_wellFormed.empty_lt_size]
  rintro operand between ⟨onward, _, found, rfl⟩
  have outweighs := derivable.outweighs_option base_wellFormed fromBase (frame.grows onward.ahead)
    isOpt found
  refine (yields_derive_new frame base_wellFormed asked old onward.invariant
    (.option fromBase.grows.size_le found langOld
      (derivable.operand_faultless base_wellFormed fromBase (isOpt ▸ .opt lang)))
    outweighs).mono ?_
  rintro value after ⟨invariant', ahead, inside, holds⟩
  refine made_of_derives frame base_wellFormed invariant derivable invariant'
    (frame.trans onward.ahead ahead) inside (by simp [isOpt]) ?_
  rw [isOpt]
  exact .opt fromBase.grows.size_le ((frame.grows ahead).expr found) holds

theorem yields_derive_plus {lang : ExprId} (isPlus : state.arena.get id = .plus lang) :
    (derivativeStep recur ⟨id, c⟩).Yields state
      ((derivation base c faultless).Made Invariant Ahead Holds ⟨id, c⟩ state) := by
  have member : lang ∈ (state.arena.get id).operands := by simp [isPlus, Expr.operands]
  unfold derivativeStep
  simp only [yields_bind, yields_get, show state.get id = _ from isPlus]
  refine (yields_derive_operand frame base_wellFormed asked invariant derivable invariant
    (frame.refl state) (isPlus ▸ .plus lang)).mono ?_
  rintro head between ⟨invariant', ahead, inside, holds⟩
  refine (frame.yields_push (derivation_isField base c faultless) derivation_touch invariant'
    (e := .star lang) ?_).mono ?_
  · simpa [Expr.operands] using
      operand_lt_later frame base_wellFormed invariant derivable member invariant'
  rintro star between' ⟨onward, starInside, isStar, _⟩
  refine yields_pushed_derivative frame base_wellFormed invariant derivable onward.invariant
    (frame.trans ahead onward.ahead) ?_ (by simp [isPlus]) fun invariant'' ahead' found => ?_
  · simp [Expr.operands, onward.extending.grows.lt_size inside, starInside]
  · rw [isPlus]
    exact .plus (holds_operand frame base_wellFormed invariant derivable member invariant''
      (frame.trans onward.ahead ahead') holds) ((frame.grows ahead').expr isStar) found

theorem yields_derive_star {lang : ExprId} (isStar : state.arena.get id = .star lang) :
    (derivativeStep recur ⟨id, c⟩).Yields state
      ((derivation base c faultless).Made Invariant Ahead Holds ⟨id, c⟩ state) := by
  have member : lang ∈ (state.arena.get id).operands := by simp [isStar, Expr.operands]
  have inside := derivable.lt_size (frame.fromBase invariant)
  unfold derivativeStep
  simp only [yields_bind, yields_get, show state.get id = _ from isStar]
  refine (yields_derive_operand frame base_wellFormed asked invariant derivable invariant
    (frame.refl state) (isStar ▸ .star lang)).mono ?_
  rintro head between ⟨invariant', ahead, headInside, holds⟩
  refine yields_pushed_derivative frame base_wellFormed invariant derivable invariant' ahead
    ?_ (by simp [isStar]) fun invariant'' ahead' found => ?_
  · simp [Expr.operands, headInside, (frame.grows ahead).lt_size inside]
  · rw [isStar]
    exact .star (holds_operand frame base_wellFormed invariant derivable member invariant'' ahead'
      holds) found

theorem yields_derive_rep {lang : ExprId} {count : Count}
    (isRep : state.arena.get id = .rep lang count) :
    (derivativeStep recur ⟨id, c⟩).Yields state
      ((derivation base c faultless).Made Invariant Ahead Holds ⟨id, c⟩ state) := by
  have member : lang ∈ (state.arena.get id).operands := by simp [isRep, Expr.operands]
  have wellFormed := frame.wellFormed invariant
  unfold derivativeStep
  simp only [yields_bind, yields_get, show state.get id = _ from isRep]
  rcases count with (_ | _ | times) | _
  case finite.zero =>
    refine (yields_pure _ _).mpr (made_of_derives frame base_wellFormed invariant derivable
      invariant (frame.refl state) wellFormed.empty_lt_size (by simp [isRep]) ?_)
    rw [isRep]
    exact .never lang
  case finite.succ.zero =>
    refine (yields_derive_operand frame base_wellFormed asked invariant derivable invariant
      (frame.refl state) (isRep ▸ .rep lang 0)).mono ?_
    rintro value after ⟨invariant', ahead, inside, holds⟩
    refine made_of_derives frame base_wellFormed invariant derivable invariant' ahead inside
      (by simp [isRep]) ?_
    have holds := holds_operand frame base_wellFormed invariant derivable member invariant'
      (frame.refl after) holds
    rw [isRep]
    exact .once holds
  case finite.succ.succ =>
    refine (yields_bind _ _ _).mpr ((yields_derive_operand frame base_wellFormed asked invariant
      derivable invariant (frame.refl state) (isRep ▸ .rep lang (times + 1))).mono ?_)
    rintro head between ⟨invariant', ahead, inside, holds⟩
    refine (yields_bind _ _ _).mpr ((frame.yields_push (derivation_isField base c faultless)
      derivation_touch invariant' (e := .rep lang (.finite (times + 1))) ?_).mono ?_)
    · simpa [Expr.operands] using
        operand_lt_later frame base_wellFormed invariant derivable member invariant'
    rintro rest between' ⟨onward, restInside, isRest, _⟩
    refine yields_pushed_derivative frame base_wellFormed invariant derivable onward.invariant
      (frame.trans ahead onward.ahead) ?_ (by simp [isRep]) fun invariant'' ahead' found => ?_
    · simp [Expr.operands, onward.extending.grows.lt_size inside, restInside]
    · have holds := holds_operand frame base_wellFormed invariant derivable member invariant''
        (frame.trans onward.ahead ahead') holds
      rw [isRep]
      exact .repeated holds ((frame.grows ahead').expr isRest) found
  case infinite =>
    have included : ¬ faultless := fun excluded =>
      derivable.bounded base_wellFormed (frame.fromBase invariant) excluded lang isRep
    have faulty : (fail .unboundedRepetition state).fault ≠ none := by
      unfold fail
      cases state.fault <;> simp
    simp only [yields_bind, yields_modify, yields_pure]
    have side := frame.side invariant
    have refusal : ∀ error, (fail .unboundedRepetition state).fault = some error →
        error = .unboundedRepetition := by
      intro error refused
      unfold fail at refused
      cases isFault : state.fault with
      | none => simpa [isFault] using refused.symm
      | some first => exact side.refusal error (by simpa [isFault] using refused)
    have moves : (derivation base c faultless).Moves state (fail .unboundedRepetition state) :=
      { wellFormed := wellFormed
        extending := .refl _
        exprs := fun outside found =>
          absurd (Arena.lt_size_of_slot? found) (Nat.not_lt_of_le outside)
        settled_eq := rfl
        pending_eq := rfl
        strategy_eq := rfl
        side := ⟨wellFormed, side.nullability, fun excluded => absurd excluded included, refusal⟩
        later := ⟨rfl, fun isNone => absurd isNone faulty, ⟨_, _, rfl⟩, fun truncated => truncated⟩ }
    obtain ⟨invariant', ahead⟩ := frame.move invariant moves
    refine made_of_derives frame base_wellFormed invariant derivable invariant' ahead
      wellFormed.nil_lt_size (fun isNone => absurd isNone faulty) ?_
    rw [isRep]
    exact .unbounded lang

/-- A derivation step makes its answer by a rule. -/
theorem yields_derivativeStep :
    (derivativeStep recur ⟨id, c⟩).Yields state
      ((derivation base c faultless).Made Invariant Ahead Holds ⟨id, c⟩ state) := by
  have wellFormed := frame.wellFormed invariant
  have leaf : ∀ {value}, value.number < state.arena.size →
      base.arena.Derives state.arena (base.arena.IsNullable state.tables.nullability.Trusts)
        (fun id answer => Holds state ⟨id, c⟩ answer) c id (state.arena.get id) value →
      (∀ lang, state.arena.get id ≠ .rep lang .infinite) →
      (pure value : Eval Grammar ExprId).Yields state
        ((derivation base c faultless).Made Invariant Ahead Holds ⟨id, c⟩ state) :=
    fun inside derives bounded => (yields_pure _ _).mpr (made_of_derives frame base_wellFormed invariant
      derivable invariant (frame.refl state) inside (fun _ => bounded) derives)
  cases same : state.arena.get id with
  | any =>
      rw [same] at leaf
      unfold derivativeStep
      simp only [yields_bind, yields_get, show state.get id = _ from same]
      exact leaf wellFormed.empty_lt_size .any (by simp)
  | empty =>
      rw [same] at leaf
      unfold derivativeStep
      simp only [yields_bind, yields_get, show state.get id = _ from same]
      exact leaf wellFormed.nil_lt_size .empty (by simp)
  | nil =>
      rw [same] at leaf
      unfold derivativeStep
      simp only [yields_bind, yields_get, show state.get id = _ from same]
      exact leaf wellFormed.nil_lt_size .nil (by simp)
  | char c' =>
      rw [same] at leaf
      unfold derivativeStep
      simp only [yields_bind, yields_get, show state.get id = _ from same]
      refine leaf ?_ (.char c') (by simp)
      split
      · exact wellFormed.empty_lt_size
      · exact wellFormed.nil_lt_size
  | range low high =>
      exact yields_derive_range frame base_wellFormed asked invariant derivable same
  | token text => exact yields_derive_token frame base_wellFormed asked invariant derivable same
  | alt left right => exact yields_derive_alt frame base_wellFormed asked invariant derivable same
  | cat first second => exact yields_derive_cat frame base_wellFormed asked invariant derivable same
  | not lang => exact yields_derive_not frame base_wellFormed asked invariant derivable same
  | opt lang => exact yields_derive_opt frame base_wellFormed asked invariant derivable same
  | plus lang => exact yields_derive_plus frame base_wellFormed asked invariant derivable same
  | star lang => exact yields_derive_star frame base_wellFormed asked invariant derivable same
  | rep lang count => exact yields_derive_rep frame base_wellFormed asked invariant derivable same

end Step

/-! ## Derivation answers -/

theorem derivation_lawful (wellFormed : base.arena.WellFormed)
    (settled_lt : ∀ {key : Derivation} {value : ExprId},
      base.tables.derivatives.settled[key]? = some value → value.number < base.arena.size) :
    (derivation base c faultless).Lawful where
  isField := derivation_isField base c faultless
  settled_lt := settled_lt
  later_refl := .refl
  later_trans := .trans
  touch := derivation_touch
  rule_mono later more rule :=
    ⟨rule.1, rule.2.1, fun faultless => rule.2.2.1 (later.fault faultless), rule.2.2.2.mono (fun _ _ isNullable => isNullable.mono
      fun _ trusted => trusted.of_later later.truncated) fun _ _ => more _ _⟩
  valid_grows valid growing _ _ := ⟨valid.1, valid.2.grows growing⟩
  asks_grows growing outweighs := Arena.Outweighs.grows outweighs growing
  rank_lt {arena key} _ := by
    change (if key.lang.number < base.arena.size then 0 else 1) < 2
    split <;> decide
  step_yields {Invariant Ahead Holds recur key state} frame asked invariant valid := by
    obtain ⟨id, c'⟩ := key
    obtain ⟨rfl, derivable⟩ := valid
    exact yields_derivativeStep frame wellFormed (fun invariant valid asks order =>
      asked invariant valid asks order) invariant derivable

/-- What the outermost calls of the derivation leave behind. -/
structure DerivativesKept (grammar : Grammar) : Prop where
  idle : ∀ key : Derivation, grammar.tables.derivatives.pending[key]? = none
  singlePass : grammar.tables.derivatives.strategy = .singlePass
  settled_lt : ∀ {key : Derivation} {value : ExprId},
    grammar.tables.derivatives.settled[key]? = some value →
      key.lang.number < grammar.arena.size ∧ value.number < grammar.arena.size

theorem yields_computeDerivative (side : DerivationSide base faultless base)
    (kept : DerivativesKept base) (inside : id.number < base.arena.size)
    (isFaultless : faultless → base.arena.Faultless id) :
    (computeDerivative id c).Yields base fun value after => ∃ results,
      (derivation base c faultless).Finished ⟨base.arena.resolve id, c⟩ value results after := by
  have wellFormed := side.wellFormed
  have resolve_lt := wellFormed.resolve_lt inside
  unfold computeDerivative
  simp only [yields_bind, yields_get]
  refine Scheme.yields_solve (derivation_lawful wellFormed fun settled => (kept.settled_lt settled).2)
    wellFormed side kept.singlePass kept.idle
    ⟨rfl, .old resolve_lt (wellFormed.resolve_resolve id) fun excluded =>
      (isFaultless excluded).of_get (wellFormed.get_resolve id).symm⟩ ?_
  change 2 * (base.arena.ids.image (⟨·, c⟩ : ExprId → Derivation)).card +
    (if (base.arena.resolve id).number < base.arena.size then 0 else 1) < 2 * base.arena.size + 1
  rw [if_pos resolve_lt]
  have := (Finset.card_image_le (s := base.arena.ids) (f := fun id => (⟨id, c⟩ : Derivation))).trans
    base.arena.card_ids_le
  omega

end Grammar

end Residual
