import Residual.Grammar.NormalForm
import Residual.Proofs.Grammar.Equality
import Residual.Proofs.Grammar.Heights
import Residual.Proofs.Grammar.NormalForm.Rules
import Residual.Proofs.Grammar.Transformation.Evaluation

/-!
# One simplification step follows the rules

The evaluation of `simplifyStep` for one expression: whatever it asks for and adds to the arena,
its answer was made by `SimplificationRule`.
-/

set_option autoImplicit false

namespace Residual.Grammar

open Memo Eval Scheme

/-- What is made of an expression, from what was told about its operands.  A link that is not
bound yet is left alone. -/
inductive SimplificationRule (senses : Sense → Prop) (arena : Arena)
    (told : ExprId → ExprId → Prop) (id : ExprId) : ExprId → Prop where
  | unbound : arena.slot? id = some (.link none) → SimplificationRule senses arena told id id
  | never {lang : ExprId} : arena.slot? id = some (.expr (.rep lang (.finite 0))) →
      SimplificationRule senses arena told id .empty
  | reduce {e e' : Expr ExprId} {value : ExprId} : arena.slot? id = some (.expr e) →
      e.Related (fun operand simple => told (arena.resolve operand) simple) e' →
      arena.Simplifies senses id e' value → SimplificationRule senses arena told id value

theorem SimplificationRule.mono {senses senses' : Sense → Prop} {arena : Arena}
    {told told' : ExprId → ExprId → Prop} {id value : ExprId}
    (fewer : ∀ sense, senses' sense → senses sense)
    (more : ∀ key answer, told key answer → told' key answer)
    (rule : SimplificationRule senses arena told id value) :
    SimplificationRule senses' arena told' id value := by
  cases rule with
  | unbound found => exact .unbound found
  | never found => exact .never found
  | reduce found related simplifies =>
      exact .reduce found (related.imp fun _ _ => more _ _) (simplifies.mono fewer)

/-- What holds throughout a simplification that starts in the grammar `base`. -/
structure SimplificationSide (base state : Grammar) : Prop where
  wellFormed : state.arena.WellFormed
  fromBase : base.arena.Extends state.arena
  equalities : state.arena.EqualitySound state.tables.equalities
  distinguishes : ∀ limit ≤ base.arena.size, base.Distinguishes limit → state.Distinguishes limit
  heights : ∀ id : ExprId, state.tables.heights.pending[id]? = none

/-- What a simplification leaves as it is. -/
structure SimplificationLater (state after : Grammar) : Prop where
  config : after.config = state.config
  fault : after.fault = state.fault
  tables : ∃ heights equalities simplified,
    after.tables = { state.tables with heights, equalities, simplified }
  truncated : state.tables.equalities.truncated = true →
    after.tables.equalities.truncated = true

theorem SimplificationLater.refl (state : Grammar) : SimplificationLater state state :=
  ⟨rfl, rfl, ⟨_, _, _, rfl⟩, fun truncated => truncated⟩

theorem SimplificationLater.trans {first second third : Grammar}
    (before : SimplificationLater first second) (later : SimplificationLater second third) :
    SimplificationLater first third where
  config := later.config.trans before.config
  fault := later.fault.trans before.fault
  tables := by
    obtain ⟨_, _, _, same⟩ := before.tables
    obtain ⟨_, _, _, same'⟩ := later.tables
    exact ⟨_, _, _, by rw [same', same]⟩
  truncated truncated := later.truncated (before.truncated truncated)

/-- Simplification as a transformation of a grammar. -/
def simplification (base : Grammar) : Scheme ExprId where
  table := Tables.simplified
  modifyTable f tables := { tables with simplified := f tables.simplified }
  step := simplifyStep
  base := base
  Side := SimplificationSide base
  Later := SimplificationLater
  Rule state arena told id value := id.number < base.arena.size ∧
    SimplificationRule state.tables.equalities.Trusts arena told id value
  Valid _ id := id.number < base.arena.size ∧ base.arena.resolve id = id
  Asks _ _ _ := True
  keys := base.arena.ids
  weight := 1
  rank _ := 0

variable {base state after : Grammar} {id x y : ExprId}

theorem simplification_isField (base : Grammar) :
    Tables.IsField (simplification base).table (simplification base).modifyTable :=
  ⟨fun _ _ => rfl, fun _ _ _ => rfl, fun _ => rfl⟩

theorem simplification_touch (side : SimplificationSide base state)
    (touches : (simplification base).Touches state after) :
    SimplificationSide base after ∧ SimplificationLater state after := by
  obtain ⟨f, tables⟩ := touches.tables
  have tables : after.tables = { state.tables with simplified := f state.tables.simplified } := tables
  have fromBase : base.arena.Extends after.arena := touches.fromBase
  refine ⟨⟨touches.wellFormed, fromBase, ?_, fun limit limited distinguishes => ?_, ?_⟩,
    touches.config, touches.fault, ⟨_, _, _, tables⟩, ?_⟩
  · rw [tables]
    exact side.equalities.grows touches.grows side.wellFormed touches.wellFormed
  · unfold Distinguishes
    rw [tables]
    exact (side.distinguishes limit limited distinguishes).grows touches.grows
      (side.fromBase.agree_both fromBase limited) side.wellFormed touches.wellFormed
  · rw [tables]
    exact side.heights
  · rw [tables]
    exact fun truncated => truncated

/-! ## What a step does on its own -/

@[simp]
theorem yields_shape (post : Option (Expr ExprId) → Grammar → Prop) :
    (shape? id).Yields state post ↔ post (state.arena.get? id) state := by
  unfold shape?
  simp only [yields_bind, yields_get, yields_pure]

@[simp]
theorem yields_unchanged (post : Bool → Grammar → Prop) :
    (unchanged x y).Yields state post ↔ post (state.arena.resolve x == y) state := by
  unfold unchanged
  simp only [yields_bind, yields_get, yields_pure]
  rfl

/-- The answer of a step for an expression whose operands are simplified. -/
structure Rewritten (Invariant : Grammar → Prop) (Ahead : Grammar → Grammar → Prop)
    (state : Grammar) (id : ExprId) (e : Expr ExprId) (value : ExprId) (after : Grammar) :
    Prop where
  onward : Onward Invariant Ahead state after
  inside : value.number < after.arena.size
  simplifies : after.arena.Simplifies after.tables.equalities.Trusts id e value

/-- The union of two operands in their final order. -/
def uniteOrdered (id left right l r : ExprId) : Eval Grammar ExprId := do
  if ← computeEqual l r then
    return l
  else if (← shape? r) = some .nil then
    return l
  else if (← shape? l) = some .nil then
    return r
  else if (← unchanged left l) && (← unchanged right r) then
    return id
  else
    push (.alt l r)

/-- The union of two operands, the lower one first. -/
def unite (id left right l r : ExprId) : Eval Grammar ExprId := do
  let leftHeight ← computeHeight l
  let rightHeight ← computeHeight r
  let (l, r) := if leftHeight > rightHeight then (r, l) else (l, r)
  uniteOrdered id left right l r

theorem simplifyAlt_eq (id left right simpleLeft simpleRight : ExprId) :
    simplifyAlt id left right simpleLeft simpleRight = (do
      let (l, r) ← do
        match ← shape? simpleLeft with
        | some (.alt inner rest) =>
            let inner := (← get).resolve inner
            pure (inner, ← push (.alt rest simpleRight))
        | _ => pure (simpleLeft, simpleRight)
      unite id left right l r) := rfl

section Steps

variable {Invariant : Grammar → Prop} {Ahead : Grammar → Grammar → Prop}
  {Holds : Grammar → ExprId → ExprId → Prop}
  (frame : (simplification base).Frame Invariant Ahead Holds) (invariant : Invariant state)

include frame invariant

/-- A step asks an analysis, which changes its table only. -/
theorem onward_of_tables {heights : Table ExprId Nat} {equalities : Table (ExprId × ExprId) Bool}
    (config : after.config = state.config) (arena : after.arena = state.arena)
    (fault : after.fault = state.fault)
    (tables : after.tables = { state.tables with heights, equalities })
    (idle : ∀ id : ExprId, heights.pending[id]? = none)
    (sound : state.arena.EqualitySound equalities)
    (distinguishes : ∀ limit, state.Distinguishes limit → state.arena.Distinguishes limit equalities)
    (truncated : state.tables.equalities.truncated = true → equalities.truncated = true) :
    Onward Invariant Ahead state after := by
  have wellFormed := frame.wellFormed invariant
  have side := frame.side invariant
  have extending : state.arena.Extends after.arena := by
    rw [arena]
    exact .refl _
  have moves : (simplification base).Moves state after :=
    { wellFormed := by rwa [arena]
      extending := extending
      exprs := fun outside found =>
        absurd (Arena.lt_size_of_slot? (arena ▸ found)) (Nat.not_lt_of_le outside)
      settled_eq := by rw [tables]; rfl
      pending_eq := by rw [tables]; rfl
      strategy_eq := by rw [tables]; rfl
      side :=
        { wellFormed := by rwa [arena]
          fromBase := by
            rw [arena]
            exact frame.fromBase invariant
          equalities := by rwa [arena, tables]
          distinguishes := fun limit limited fromBase => by
            unfold Distinguishes
            rw [arena, tables]
            exact distinguishes limit (side.distinguishes limit limited fromBase)
          heights := by rwa [tables] }
      later := ⟨config, fault, ⟨_, _, _, tables⟩, by rwa [tables]⟩ }
  obtain ⟨invariant, ahead⟩ := frame.move invariant moves
  exact ⟨invariant, ahead, extending⟩

theorem yields_height (inside : id.number < state.arena.size) :
    (computeHeight id).Yields state fun _ after =>
      Onward Invariant Ahead state after ∧ after.arena = state.arena := by
  have side := frame.side invariant
  refine (yields_computeHeight side.wellFormed side.heights inside).mono ?_
  rintro height after ⟨⟨heights, tables, heightens, _⟩, config, arena, fault⟩
  exact ⟨onward_of_tables frame invariant config arena fault tables heightens.idle side.equalities
    (fun _ distinguishes => distinguishes) (fun truncated => truncated), arena⟩

theorem yields_equal (inside : x.number < state.arena.size)
    (inside' : y.number < state.arena.size) :
    (computeEqual x y).Yields state fun value after =>
      Onward Invariant Ahead state after ∧ after.arena = state.arena ∧
        (value = true → after.arena.Alike after.tables.equalities.Trusts x y) := by
  have side := frame.side invariant
  refine (yields_computeEqual side.wellFormed side.equalities inside inside').mono ?_
  rintro value after
    ⟨⟨equalities, tables, sound, truncated, _, distinguishes, _, settled⟩, config, arena, fault⟩
  refine ⟨onward_of_tables frame invariant config arena fault tables side.heights sound
    distinguishes truncated, arena, ?_⟩
  rintro rfl
  rw [arena, tables]
  exact sound.alike side.wellFormed (.inr settled)

/-- An expression that a step adds is its answer. -/
theorem yields_pushed {e : Expr ExprId} (counted : Arena.IsCounted e.shape)
    (operands : ∀ o ∈ e.operands, o.number < state.arena.size) :
    (liftM (push e) : Eval Grammar ExprId).Yields state
      (Rewritten Invariant Ahead state id e) := by
  refine (frame.yields_push (simplification_isField base) simplification_touch invariant
    operands).mono ?_
  rintro value after ⟨onward, inside, found, _⟩
  exact ⟨onward, inside, .keep found counted⟩

omit invariant

/-- A rewritten expression seen from an earlier state. -/
theorem Rewritten.of_onward {between : Grammar} {e : Expr ExprId} {value : ExprId}
    (onward : Onward Invariant Ahead state between)
    (rewritten : Rewritten Invariant Ahead between id e value after) :
    Rewritten Invariant Ahead state id e value after :=
  ⟨frame.onward_trans onward rewritten.onward, rewritten.inside, rewritten.simplifies⟩

variable (invariant : Invariant state)

include invariant

theorem yields_uniteOrdered {left right l r : ExprId}
    (found : state.arena.slot? id = some (.expr (.alt left right)))
    (inside : l.number < state.arena.size) (inside' : r.number < state.arena.size) :
    (uniteOrdered id left right l r).Yields state
      (Rewritten Invariant Ahead state id (.alt l r)) := by
  unfold uniteOrdered
  refine (yields_bind _ _ _).mpr ((yields_equal frame invariant inside inside').mono ?_)
  rintro isEqual after ⟨onward, sameArena, alike⟩
  have wellFormed := frame.wellFormed onward.invariant
  rw [← sameArena] at found inside inside'
  cases isEqual with
  | true => exact (yields_pure _ _).mpr ⟨onward, inside, .same (alike rfl)⟩
  | false =>
      simp only [Bool.false_eq_true, if_false, yields_bind, yields_shape]
      split
      · rename_i isNil
        exact (yields_pure _ _).mpr
          ⟨onward, inside, .altNil ((wellFormed.get?_eq_some inside').mp isNil)⟩
      · simp only [yields_bind, yields_shape]
        split
        · rename_i isNil
          exact (yields_pure _ _).mpr
            ⟨onward, inside', .nilAlt ((wellFormed.get?_eq_some inside).mp isNil)⟩
        · simp only [yields_bind, yields_unchanged]
          split
          · rename_i bothUnchanged
            simp only [Bool.and_eq_true, beq_iff_eq] at bothUnchanged
            obtain ⟨rfl, rfl⟩ := bothUnchanged
            exact (yields_pure _ _).mpr ⟨onward, Arena.lt_size_of_slot? found,
              .unchanged found (of_decide_eq_true rfl)⟩
          · refine (yields_pushed (e := .alt l r) frame onward.invariant (of_decide_eq_true rfl)
              ?_).mono fun value after rewritten => rewritten.of_onward frame onward
            simp [Expr.operands, inside, inside']

theorem yields_unite {left right l r : ExprId}
    (found : state.arena.slot? id = some (.expr (.alt left right)))
    (inside : l.number < state.arena.size) (inside' : r.number < state.arena.size) :
    (unite id left right l r).Yields state (Rewritten Invariant Ahead state id (.alt l r)) := by
  unfold unite
  refine (yields_bind _ _ _).mpr ((yields_height frame invariant inside).mono ?_)
  rintro leftHeight between ⟨onward, sameArena⟩
  rw [← sameArena] at found inside inside'
  refine (yields_bind _ _ _).mpr ((yields_height frame onward.invariant inside').mono ?_)
  rintro rightHeight between' ⟨onward', sameArena⟩
  rw [← sameArena] at found inside inside'
  have onward := frame.onward_trans onward onward'
  by_cases order : leftHeight > rightHeight
  · simp only [order, if_true]
    refine (yields_uniteOrdered frame onward.invariant found inside' inside).mono
      fun value after rewritten => ?_
    exact ⟨frame.onward_trans onward rewritten.onward, rewritten.inside, .swap rewritten.simplifies⟩
  · simp only [order, if_false]
    exact (yields_uniteOrdered frame onward.invariant found inside inside').mono
      fun value after rewritten => rewritten.of_onward frame onward

theorem yields_simplifyAlt {left right simpleLeft simpleRight : ExprId}
    (found : state.arena.slot? id = some (.expr (.alt left right)))
    (inside : simpleLeft.number < state.arena.size)
    (inside' : simpleRight.number < state.arena.size) :
    (simplifyAlt id left right simpleLeft simpleRight).Yields state
      (Rewritten Invariant Ahead state id (.alt simpleLeft simpleRight)) := by
  have wellFormed := frame.wellFormed invariant
  rw [simplifyAlt_eq]
  simp only [yields_bind, yields_shape]
  split
  · rename_i inner rest known
    have stands := (wellFormed.get?_eq_some inside).mp known
    have operand_lt := wellFormed.operand_lt stands
    simp only [yields_bind, yields_get]
    have pushing := frame.yields_push (simplification_isField base) simplification_touch invariant
      (e := .alt rest simpleRight) (by
        simp only [Expr.operands, List.mem_cons, List.not_mem_nil, or_false, forall_eq_or_imp,
          forall_eq]
        exact ⟨operand_lt rest (by simp [Expr.operands]), inside'⟩)
    refine pushing.mono ?_
    rintro tail between ⟨onward, tailInside, tailFound, _⟩
    rw [yields_pure]
    have grows := onward.extending.grows
    have innerInside := operand_lt inner (by simp [Expr.operands])
    have sameResolve := onward.extending.resolve wellFormed innerInside
    refine (yields_unite frame onward.invariant (grows.expr found)
      (grows.lt_size (wellFormed.resolve_lt innerInside)) tailInside).mono
      fun value after rewritten => ?_
    refine ⟨frame.onward_trans onward rewritten.onward, rewritten.inside, ?_⟩
    have wellFormed' := frame.wellFormed onward.invariant
    have wellFormed'' := frame.wellFormed rewritten.onward.invariant
    have extending := onward.extending.trans rewritten.onward.extending
    refine .regroup (extending.grows.stands wellFormed wellFormed'' stands)
      (rewritten.onward.extending.grows.expr tailFound) ?_
    rw [extending.resolve wellFormed innerInside]
    exact rewritten.simplifies
  · rw [yields_bind, yields_pure]
    exact yields_unite frame invariant found inside inside'

theorem yields_simplifyCat {first second simpleFirst simpleSecond : ExprId}
    (found : state.arena.slot? id = some (.expr (.cat first second)))
    (inside : simpleFirst.number < state.arena.size)
    (inside' : simpleSecond.number < state.arena.size) :
    (simplifyCat id first second simpleFirst simpleSecond).Yields state
      (Rewritten Invariant Ahead state id (.cat simpleFirst simpleSecond)) := by
  have wellFormed := frame.wellFormed invariant
  have onward := frame.onward_refl invariant
  have known : ∀ {x e}, x.number < state.arena.size → state.arena.get? x = some e →
      state.arena.Stands x e := fun inside known => (wellFormed.get?_eq_some inside).mp known
  unfold simplifyCat
  simp only [yields_bind, yields_shape]
  split
  · rename_i isNil
    exact (yields_pure _ _).mpr ⟨onward, inside, .nilCat (known inside isNil)⟩
  · rename_i isNil _
    exact (yields_pure _ _).mpr ⟨onward, inside', .catNil (known inside' isNil)⟩
  · rename_i isEmpty _
    exact (yields_pure _ _).mpr ⟨onward, inside', .emptyCat (known inside isEmpty)⟩
  · rename_i isEmpty _ _
    exact (yields_pure _ _).mpr ⟨onward, inside, .catEmpty (known inside' isEmpty)⟩
  · simp only [yields_bind, yields_unchanged]
    split
    · rename_i bothUnchanged
      simp only [Bool.and_eq_true, beq_iff_eq] at bothUnchanged
      obtain ⟨rfl, rfl⟩ := bothUnchanged
      exact (yields_pure _ _).mpr ⟨onward, Arena.lt_size_of_slot? found,
        .unchanged found (of_decide_eq_true rfl)⟩
    · refine yields_pushed (e := .cat simpleFirst simpleSecond) frame invariant
        (of_decide_eq_true rfl) ?_
      simp [Expr.operands, inside, inside']

theorem yields_rebuild {operand simple : ExprId} {e e' : Expr ExprId}
    (found : state.arena.slot? id = some (.expr e)) (sameShape : e.shape = e'.shape)
    (counted : Arena.IsCounted e'.shape) (operands : e.operands = [operand])
    (operands' : e'.operands = [simple]) (inside : simple.number < state.arena.size) :
    (rebuild id operand simple e').Yields state (Rewritten Invariant Ahead state id e') := by
  unfold rebuild
  simp only [yields_bind, yields_unchanged]
  split
  · rename_i isUnchanged
    obtain rfl := beq_iff_eq.mp isUnchanged
    obtain rfl : e' = e.map state.arena.resolve :=
      Expr.ext_of_shape (by simpa using sameShape.symm) (by simp [operands, operands'])
    exact (yields_pure _ _).mpr ⟨frame.onward_refl invariant, Arena.lt_size_of_slot? found,
      .unchanged found (sameShape ▸ counted)⟩
  · exact yields_pushed frame invariant counted (by simpa [operands'] using inside)

end Steps

/-! ## One step -/

section Step

variable {Invariant : Grammar → Prop} {Ahead : Grammar → Grammar → Prop}
  {Holds : Grammar → ExprId → ExprId → Prop}
  (frame : (simplification base).Frame Invariant Ahead Holds)
  (base_wellFormed : base.arena.WellFormed)

include frame base_wellFormed

/-- The answer for an expression, from that for its simplified operands. -/
theorem made_of_rewritten {between : Grammar} {e e' : Expr ExprId} {value : ExprId}
    (found : base.arena.slot? id = some (.expr e)) (ahead : Ahead state between)
    (related : e.Related (fun operand simple => Holds between (base.arena.resolve operand) simple)
      e')
    (rewritten : Rewritten Invariant Ahead between id e' value after) :
    (simplification base).Made Invariant Ahead Holds id state value after := by
  have fromBase := frame.fromBase rewritten.onward.invariant
  refine ⟨rewritten.onward.invariant, frame.trans ahead rewritten.onward.ahead, rewritten.inside,
    Arena.lt_size_of_slot? found, .reduce (fromBase.grows.expr found)
      (related.imp_of_mem fun operand member simple told => ?_) rewritten.simplifies⟩
  rw [fromBase.resolve base_wellFormed (base_wellFormed.operand_lt found operand member)]
  exact frame.keep rewritten.onward.ahead _ _ told

variable {recur : ExprId → Eval Grammar ExprId}
  (asked : ∀ {other state}, Invariant state → (simplification base).Valid state.arena other →
    (recur other).Yields state (Answered Invariant Ahead Holds other state))

include asked

theorem yields_operand {operand : ExprId} (invariant : Invariant state)
    (inside : operand.number < base.arena.size) :
    (askOperand recur operand).Yields state
      (Answered Invariant Ahead Holds (base.arena.resolve operand) state) := by
  unfold askOperand
  rw [yields_bind, yields_get]
  have same : state.resolve operand = base.arena.resolve operand :=
    (frame.fromBase invariant).resolve base_wellFormed inside
  rw [same]
  exact asked invariant ⟨base_wellFormed.resolve_lt inside, base_wellFormed.resolve_resolve operand⟩

/-- An operator with one operand: the operand is simplified, and then the operator is. -/
theorem yields_unary {operand : ExprId} {e : ExprId → Expr ExprId}
    {next : ExprId → Eval Grammar ExprId} (invariant : Invariant state)
    (found : base.arena.slot? id = some (.expr (e operand)))
    (member : operand ∈ (e operand).operands)
    (related : ∀ {Told : ExprId → ExprId → Prop} {simple}, Told operand simple →
      (e operand).Related Told (e simple))
    (simplifies : ∀ {between simple}, Invariant between →
      between.arena.slot? id = some (.expr (e operand)) → simple.number < between.arena.size →
      (next simple).Yields between (Rewritten Invariant Ahead between id (e simple))) :
    Yields (askOperand recur operand >>= next) state
      ((simplification base).Made Invariant Ahead Holds id state) := by
  rw [yields_bind]
  refine (yields_operand frame base_wellFormed asked invariant
    (base_wellFormed.operand_lt found operand member)).mono ?_
  rintro simple between ⟨invariant, ahead, inside, told⟩
  exact (simplifies invariant ((frame.fromBase invariant).grows.expr found) inside).mono
    fun value after => made_of_rewritten frame base_wellFormed found ahead (related told)

/-- An operator with two operands. -/
theorem yields_binary {left right : ExprId} {e : ExprId → ExprId → Expr ExprId}
    {next : ExprId → ExprId → Eval Grammar ExprId} (invariant : Invariant state)
    (found : base.arena.slot? id = some (.expr (e left right)))
    (members : (e left right).operands = [left, right])
    (related : ∀ {Told : ExprId → ExprId → Prop} {simple simple'}, Told left simple →
      Told right simple' → (e left right).Related Told (e simple simple'))
    (simplifies : ∀ {between simple simple'}, Invariant between →
      between.arena.slot? id = some (.expr (e left right)) →
      simple.number < between.arena.size → simple'.number < between.arena.size →
      (next simple simple').Yields between
        (Rewritten Invariant Ahead between id (e simple simple'))) :
    Yields (do
        let simple ← askOperand recur left
        let simple' ← askOperand recur right
        next simple simple') state
      ((simplification base).Made Invariant Ahead Holds id state) := by
  have operand_lt := base_wellFormed.operand_lt found
  rw [yields_bind]
  refine (yields_operand frame base_wellFormed asked invariant (operand_lt left
    (by simp [members]))).mono ?_
  rintro simple between ⟨invariant, ahead, inside, told⟩
  rw [yields_bind]
  refine (yields_operand frame base_wellFormed asked invariant (operand_lt right
    (by simp [members]))).mono ?_
  rintro simple' between' ⟨invariant, ahead', inside', told'⟩
  have told := frame.keep ahead' _ _ told
  exact (simplifies invariant ((frame.fromBase invariant).grows.expr found)
    ((frame.grows ahead').lt_size inside) inside').mono fun value after =>
      made_of_rewritten frame base_wellFormed found (frame.trans ahead ahead')
        (related told told')

/-- A simplification step makes its answer by a rule. -/
theorem yields_simplifyStep (invariant : Invariant state)
    (valid : (simplification base).Valid state.arena id) :
    (simplifyStep recur id).Yields state
      ((simplification base).Made Invariant Ahead Holds id state) := by
  obtain ⟨inside, resolved⟩ := valid
  have fromBase := frame.fromBase invariant
  have same : state.get id = base.arena.get id := fromBase.get base_wellFormed inside
  have onward := frame.onward_refl invariant
  have inside' := fromBase.grows.lt_size inside
  have made : ∀ {e value}, base.arena.slot? id = some (.expr e) → e.operands = [] →
      value.number < state.arena.size →
      state.arena.Simplifies state.tables.equalities.Trusts id e value →
      (simplification base).Made Invariant Ahead Holds id state value state := by
    intro e value found leaf inside simplifies
    exact made_of_rewritten frame base_wellFormed found (frame.refl state) (.leaf leaf)
      ⟨onward, inside, simplifies⟩
  unfold simplifyStep
  simp only [yields_bind, yields_get, same]
  rcases base_wellFormed.stands_or_unbound inside with ⟨e, stands⟩ | unbound
  · have found : base.arena.slot? id = some (.expr e) := by
      rwa [Arena.Stands, resolved] at stands
    have found' := fromBase.grows.expr found
    rw [Arena.get_of_stands stands]
    cases e with
    | alt left right =>
        exact yields_binary frame base_wellFormed asked (e := .alt) invariant found rfl .alt
          (fun invariant found inside inside' =>
            yields_simplifyAlt frame invariant found inside inside')
    | cat first second =>
        exact yields_binary frame base_wellFormed asked (e := .cat) invariant found rfl .cat
          (fun invariant found inside inside' =>
            yields_simplifyCat frame invariant found inside inside')
    | not lang =>
        refine yields_unary frame base_wellFormed asked (e := .not) invariant found
          (List.mem_singleton_self lang) .not fun {between simple} invariant found inside => ?_
        have wellFormed := frame.wellFormed invariant
        simp only [yields_bind, yields_shape]
        split
        · rename_i inner known
          have stands := (wellFormed.get?_eq_some inside).mp known
          simp only [yields_bind, yields_get, yields_pure]
          exact ⟨frame.onward_refl invariant, wellFormed.resolve_lt
            (wellFormed.operand_lt stands inner (by simp [Expr.operands])), .notNot stands⟩
        · exact yields_rebuild frame invariant found rfl (of_decide_eq_true rfl) rfl rfl inside
    | opt lang =>
        refine yields_unary frame base_wellFormed asked (e := .opt) invariant found
          (List.mem_singleton_self lang) .opt fun {between simple} invariant found inside => ?_
        have wellFormed := frame.wellFormed invariant
        have trivial : between.arena.Stands simple .nil ∨ between.arena.Stands simple .empty →
            Rewritten Invariant Ahead between id (.opt simple) .empty between := fun stands =>
          ⟨frame.onward_refl invariant, wellFormed.empty_lt_size, .optTrivial stands⟩
        simp only [yields_bind, yields_shape]
        split
        · rename_i known
          exact (yields_pure _ _).mpr (trivial (.inl ((wellFormed.get?_eq_some inside).mp known)))
        · rename_i known
          exact (yields_pure _ _).mpr (trivial (.inr ((wellFormed.get?_eq_some inside).mp known)))
        · exact yields_rebuild frame invariant found rfl (of_decide_eq_true rfl) rfl rfl inside
    | plus lang =>
        refine yields_unary frame base_wellFormed asked (e := .plus) invariant found
          (List.mem_singleton_self lang) .plus fun {between simple} invariant found inside => ?_
        have wellFormed := frame.wellFormed invariant
        have trivial : between.arena.Stands simple .nil ∨ between.arena.Stands simple .empty →
            Rewritten Invariant Ahead between id (.plus simple) simple between := fun stands =>
          ⟨frame.onward_refl invariant, inside, .plusTrivial stands⟩
        simp only [yields_bind, yields_shape]
        split
        · rename_i known
          exact (yields_pure _ _).mpr (trivial (.inl ((wellFormed.get?_eq_some inside).mp known)))
        · rename_i known
          exact (yields_pure _ _).mpr (trivial (.inr ((wellFormed.get?_eq_some inside).mp known)))
        · exact yields_rebuild frame invariant found rfl (of_decide_eq_true rfl) rfl rfl inside
    | star lang =>
        refine yields_unary frame base_wellFormed asked (e := .star) invariant found
          (List.mem_singleton_self lang) .star fun {between simple} invariant found inside => ?_
        have wellFormed := frame.wellFormed invariant
        have trivial : between.arena.Stands simple .nil ∨ between.arena.Stands simple .empty →
            Rewritten Invariant Ahead between id (.star simple) .empty between := fun stands =>
          ⟨frame.onward_refl invariant, wellFormed.empty_lt_size, .starTrivial stands⟩
        simp only [yields_bind, yields_shape]
        split
        · rename_i known
          exact (yields_pure _ _).mpr (trivial (.inl ((wellFormed.get?_eq_some inside).mp known)))
        · rename_i known
          exact (yields_pure _ _).mpr (trivial (.inr ((wellFormed.get?_eq_some inside).mp known)))
        · rename_i known
          exact (yields_pure _ _).mpr ⟨frame.onward_refl invariant, inside,
            .starStar ((wellFormed.get?_eq_some inside).mp known)⟩
        · exact yields_rebuild frame invariant found rfl (of_decide_eq_true rfl) rfl rfl inside
    | range low high =>
        dsimp only
        split
        · rename_i single
          subst single
          refine (frame.yields_push (simplification_isField base) simplification_touch invariant
            (e := .char low) (List.forall_mem_nil _)).mono ?_
          rintro value after ⟨onward, inside, isChar, _⟩
          exact made_of_rewritten frame base_wellFormed found (frame.refl state) (.leaf rfl)
            ⟨onward, inside, .single isChar⟩
        · exact (yields_pure _ _).mpr
            (made found rfl inside' (.unchanged found' (of_decide_eq_true rfl)))
    | rep lang count =>
        rcases count with (_ | _ | times) | _
        case finite.zero =>
          exact (yields_pure _ _).mpr ⟨invariant, frame.refl state,
            (frame.wellFormed invariant).empty_lt_size, inside, .never found'⟩
        case finite.succ.zero =>
          change (askOperand recur lang).Yields state _
          rw [← bind_pure (askOperand recur lang)]
          refine yields_unary frame base_wellFormed asked (e := fun x => .rep x (.finite 1)) invariant
            found (List.mem_singleton_self lang) (.rep _) fun invariant found inside => ?_
          exact (yields_pure _ _).mpr ⟨frame.onward_refl invariant, inside, .once⟩
        case infinite =>
          refine yields_unary frame base_wellFormed asked (e := fun x => .rep x .infinite) invariant
            found (List.mem_singleton_self lang) (.rep _)
            fun {between simple} invariant found inside => ?_
          refine (frame.yields_push (simplification_isField base) simplification_touch invariant
            (e := .star simple) (by simpa [Expr.operands] using inside)).mono ?_
          rintro value after ⟨onward, inside, isStar, _⟩
          exact ⟨onward, inside, .always isStar⟩
        case finite.succ.succ =>
          refine yields_unary frame base_wellFormed asked
            (e := fun x => .rep x (.finite (times + 2))) invariant found
            (List.mem_singleton_self lang) (.rep _)
            fun {between simple} invariant found inside => ?_
          exact yields_rebuild frame invariant found rfl (of_decide_eq_true rfl) rfl rfl inside
    | any | char _ | empty | nil | token _ =>
        exact (yields_pure _ _).mpr
          (made found rfl inside' (.unchanged found' (of_decide_eq_true rfl)))
  · rw [Arena.get_eq_nil_of_unbound unbound, yields_pure]
    rw [resolved] at unbound
    refine ⟨invariant, frame.refl state, inside', inside, .unbound ?_⟩
    rwa [fromBase id inside]

end Step

/-! ## Simplification answers -/

theorem simplification_lawful (wellFormed : base.arena.WellFormed)
    (settled_lt : ∀ {key value : ExprId}, base.tables.simplified.settled[key]? = some value →
      value.number < base.arena.size) : (simplification base).Lawful where
  isField := simplification_isField base
  settled_lt := settled_lt
  later_refl := .refl
  later_trans := .trans
  touch := simplification_touch
  rule_mono later more rule :=
    ⟨rule.1, rule.2.mono (fun _ trusted => trusted.of_later later.truncated) more⟩
  valid_grows valid _ _ _ := valid
  asks_grows _ asks := asks
  rank_lt _ := Nat.zero_lt_one
  step_yields {Invariant Ahead Holds recur key state} frame asked invariant valid := by
    refine yields_simplifyStep frame wellFormed (fun invariant valid' => ?_) invariant valid
    exact asked invariant valid' trivial (.inl (Arena.mem_ids.mpr valid.1))

/-- What the outermost calls of the simplification leave behind. -/
structure SimplifiedKept (grammar : Grammar) : Prop where
  idle : ∀ key : ExprId, grammar.tables.simplified.pending[key]? = none
  singlePass : grammar.tables.simplified.strategy = .singlePass
  settled_lt : ∀ {key value : ExprId}, grammar.tables.simplified.settled[key]? = some value →
    value.number < grammar.arena.size

theorem yields_computeSimplified (side : SimplificationSide base base) (kept : SimplifiedKept base)
    (inside : id.number < base.arena.size) :
    (computeSimplified id).Yields base fun value after => ∃ results,
      (simplification base).Finished (base.arena.resolve id) value results after := by
  have wellFormed := side.wellFormed
  unfold computeSimplified
  simp only [yields_bind, yields_get]
  refine Scheme.yields_solve (simplification_lawful wellFormed kept.settled_lt) wellFormed side
    kept.singlePass kept.idle
    ⟨wellFormed.resolve_lt inside, wellFormed.resolve_resolve id⟩ ?_
  change 1 * base.arena.ids.card + 0 < base.arena.size + 1
  have := base.arena.card_ids_le
  omega

end Residual.Grammar
