import Residual.Proofs.Grammar.Derivative.Steps
import Residual.Proofs.Grammar.NormalForm.Preservation
import Residual.Proofs.Grammar.Transformation.Passes

/-!
# Links that are reserved are bound

A transformation reserves a link for every key that it evaluates and binds it when the evaluation
ends.  `Discharges` follows the arena of a grammar through this: between two grammars that are so
related expressions were added, and every link that was reserved was bound once, to the result of
its key.  The links that are unbound, and their count, are the same again in the end.

All evaluations discharge their links, whatever the tables are filled with when they begin.
-/

set_option autoImplicit false

namespace Residual

open Memo

/-! ## Counting unbound links -/

namespace Arena

variable {arena : Arena} {id link target : ExprId} {e : Expr ExprId}

theorem isUnbound_push :
    (arena.push e).2.slot? id = some (.link none) ↔ arena.slot? id = some (.link none) := by
  constructor
  · intro unbound
    by_cases inside : id.number < arena.size
    · rwa [← extends_push arena e id inside]
    · cases slot_eq_of_push (Nat.le_of_not_lt inside) unbound
  · exact fun unbound => (extends_push arena e id (lt_size_of_slot? unbound)).trans unbound

theorem isUnbound_reserve : arena.reserve.2.slot? id = some (.link none) ↔
    arena.slot? id = some (.link none) ∨ id = arena.reserve.1 := by
  constructor
  · intro unbound
    by_cases inside : id.number < arena.size
    · exact .inl ((extends_reserve arena id inside).symm.trans unbound)
    · exact .inr (eq_reserve_of_new (lt_size_of_slot? unbound) inside)
  · rintro (unbound | rfl)
    · exact (extends_reserve arena id (lt_size_of_slot? unbound)).trans unbound
    · exact slot?_reserve arena

theorem isUnbound_bind (unbound : arena.slot? link = some (.link none)) :
    (arena.bind link target).2.slot? id = some (.link none) ↔
      arena.slot? id = some (.link none) ∧ id ≠ link := by
  rw [slot?_bind target unbound]
  split
  · rename_i same
    simp [same]
  · rename_i distinct
    simp [distinct]

/-- A link that is bound is counted no more. -/
theorem unbound_bind (unbound : arena.slot? link = some (.link none)) :
    (arena.bind link target).2.unbound = arena.unbound - 1 := by
  unfold Arena.bind
  rw [if_pos (isUnbound_iff.mpr unbound)]

/-- A new link is not in use yet. -/
theorem not_unbound_reserve : arena.slot? arena.reserve.1 ≠ some (.link none) :=
  fun unbound => absurd (lt_size_of_slot? unbound) (Nat.lt_irrefl _)

end Arena

namespace Grammar

variable {Key : Type} [BEq Key] [Hashable Key] {before between after : Grammar} {id link : ExprId}

/-- On the way from the first grammar to the second one every link that was reserved for a key was
bound, when it was counted and not bound before, to the result that was recorded for the key. -/
inductive Discharges : Grammar → Grammar → Prop where
  | aside {before after : Grammar} : after.arena.slots = before.arena.slots →
      after.arena.unbound = before.arena.unbound → Discharges before after
  | push (grammar : Grammar) (e : Expr ExprId) :
      Discharges grammar { grammar with arena := (grammar.arena.push e).2 }
  | simplification {before between : Grammar} {key value : ExprId} :
      Discharges
        (before.enter (fun f tables => { tables with simplified := f tables.simplified }) key)
        between →
      between.arena.slot? before.arena.reserve.1 = some (.link none) → 0 < between.arena.unbound →
      Discharges before
        (between.leave (fun f tables => { tables with simplified := f tables.simplified }) key
          before.arena.reserve.1 value)
  | derivation {before between : Grammar} {key : Derivation} {value : ExprId} :
      Discharges
        (before.enter (fun f tables => { tables with derivatives := f tables.derivatives }) key)
        between →
      between.arena.slot? before.arena.reserve.1 = some (.link none) → 0 < between.arena.unbound →
      Discharges before
        (between.leave (fun f tables => { tables with derivatives := f tables.derivatives }) key
          before.arena.reserve.1 value)
  | trans {first second third : Grammar} : Discharges first second → Discharges second third →
      Discharges first third

/-- The same links are unbound, and as many are counted. -/
def Balances (before after : Grammar) : Prop :=
  (∀ id, after.arena.slot? id = some (.link none) ↔ before.arena.slot? id = some (.link none)) ∧
    after.arena.unbound = before.arena.unbound

/-- The link of a key is the only one that is unbound in addition while the key is evaluated. -/
theorem Balances.leave {modifyTable : (Table Key ExprId → Table Key ExprId) → Tables → Tables}
    {key : Key} {value : ExprId} (balances : (before.enter modifyTable key).Balances between) :
    before.Balances (between.leave modifyTable key before.arena.reserve.1 value) := by
  obtain ⟨same, counted⟩ := balances
  have unbound := (same _).mpr (Arena.slot?_reserve before.arena)
  refine ⟨fun id => ?_, ?_⟩
  · have reserved := (same id).trans Arena.isUnbound_reserve
    refine (Arena.isUnbound_bind unbound).trans ?_
    rw [reserved]
    refine ⟨fun ⟨isUnbound, distinct⟩ => isUnbound.resolve_right distinct, fun isUnbound => ?_⟩
    refine ⟨.inl isUnbound, ?_⟩
    rintro rfl
    exact Arena.not_unbound_reserve isUnbound
  · refine (Arena.unbound_bind unbound).trans ?_
    rw [counted]
    rfl

theorem Discharges.balances (discharges : before.Discharges after) : before.Balances after := by
  induction discharges with
  | @aside before after sameSlots counted =>
      refine ⟨fun id => ?_, counted⟩
      unfold Arena.slot?
      rw [sameSlots]
  | push grammar e =>
      refine ⟨fun _ => Arena.isUnbound_push, ?_⟩
      cases e <;> rfl
  | simplification _ _ _ inductionHypothesis => exact inductionHypothesis.leave
  | derivation _ _ _ inductionHypothesis => exact inductionHypothesis.leave
  | trans _ _ first second =>
      exact ⟨fun id => (second.1 id).trans (first.1 id), second.2.trans first.2⟩

theorem Discharges.refl (grammar : Grammar) : grammar.Discharges grammar :=
  .aside rfl rfl

/-- Analyses leave the arena as it is. -/
theorem Aside.discharges {Value : Type}
    {modifyTable : (Table Key Value → Table Key Value) → Tables → Tables}
    (aside : Aside modifyTable before after) : before.Discharges after :=
  .aside (by rw [aside.arena]) (by rw [aside.arena])

/-! ## Evaluations -/

section Analysis

variable {Value : Type} {table : Tables → Table Key Value}
  {modifyTable : (Table Key Value → Table Key Value) → Tables → Tables}

theorem Aside.trans (isField : Tables.IsField table modifyTable)
    (first : Aside modifyTable before between) (second : Aside modifyTable between after) :
    Aside modifyTable before after where
  config := second.config.trans first.config
  arena := second.arena.trans first.arena
  fault := second.fault.trans first.fault
  tables := by
    obtain ⟨f, changed⟩ := first.tables
    obtain ⟨g, changed'⟩ := second.tables
    exact ⟨g ∘ f, by rw [changed', changed, isField.modify_modify]⟩

/-- An analysis stays aside, also where its equations make no sense. -/
theorem keeps_analysis [BEq Value] (isField : Tables.IsField table modifyTable) (bottom : Value)
    (equation : Arena → Key → Reading Key Value Value) (fuel : Nat) (key : Key) :
    Keeps (Aside modifyTable) ((analysis table modifyTable bottom equation).solve fuel key) := by
  have preserves : (analysis table modifyTable bottom equation).Preserves (Aside modifyTable) :=
    { refl := .refl isField
      trans := fun _ _ _ => .trans isField
      modifyTable := fun f _ state => ⟨rfl, rfl, rfl, f, rfl⟩
      noteRepeated := fun state => ⟨rfl, rfl, rfl, id, (isField.modify_id _).symm⟩
      noteExhausted := fun _ state => ⟨rfl, rfl, rfl, id, (isField.modify_id _).symm⟩
      bottom := fun _ => keeps_pure (.refl isField) _
      step := fun keeps key => keeps_get_bind fun state =>
        keeps_run (.refl isField) (fun _ _ _ => .trans isField) keeps (equation state.arena key)
      finish := fun _ _ value => keeps_pure (.refl isField) value }
  exact preserves.keeps_solve fuel key

end Analysis

variable {table : Tables → Table Key ExprId}
  {modifyTable : (Table Key ExprId → Table Key ExprId) → Tables → Tables}
  {step : (Key → Eval Grammar ExprId) → Key → Eval Grammar ExprId}

/-- All links are discharged, if the table makes a single pass. -/
def Discharging (table : Tables → Table Key ExprId) (before after : Grammar) : Prop :=
  (table before.tables).strategy = .singlePass →
    (table after.tables).strategy = .singlePass ∧ before.Discharges after

theorem Discharging.refl (grammar : Grammar) : Discharging table grammar grammar :=
  fun singlePass => ⟨singlePass, .refl grammar⟩

theorem Discharging.trans ⦃first second third : Grammar⦄ (begun : Discharging table first second)
    (ended : Discharging table second third) : Discharging table first third := by
  intro singlePass
  obtain ⟨singlePass, discharges⟩ := begun singlePass
  obtain ⟨singlePass, discharges'⟩ := ended singlePass
  exact ⟨singlePass, .trans discharges discharges'⟩

/-- The computation discharges its links. -/
abbrev Pays (table : Tables → Table Key ExprId) {Answer : Type}
    (computation : Eval Grammar Answer) : Prop :=
  Keeps (Discharging table) computation

theorem Pays.bind {Answer Result : Type} {computation : Eval Grammar Answer}
    {next : Answer → Eval Grammar Result} (first : Pays table computation)
    (rest : ∀ answer, Pays table (next answer)) : Pays table (computation >>= next) :=
  Keeps.bind Discharging.trans first rest

theorem pays_pure {Answer : Type} (answer : Answer) :
    Pays table (pure answer : Eval Grammar Answer) :=
  keeps_pure .refl answer

theorem pays_push (e : Expr ExprId) : Pays table (liftM (push e) : Eval Grammar ExprId) :=
  keeps_lift _ fun state singlePass => ⟨singlePass, .push state e⟩

/-- Other tables can be changed meanwhile. -/
theorem pays_analysis {Key' Value : Type} [BEq Key'] [Hashable Key'] [BEq Value]
    {table' : Tables → Table Key' Value}
    {modifyTable' : (Table Key' Value → Table Key' Value) → Tables → Tables}
    (isField : Tables.IsField table' modifyTable')
    (elsewhere : ∀ f tables, table (modifyTable' f tables) = table tables) (bottom : Value)
    (equation : Arena → Key' → Reading Key' Value Value) (fuel : Nat) (key : Key') :
    Pays table ((analysis table' modifyTable' bottom equation).solve fuel key) := by
  intro state
  refine (keeps_analysis isField bottom equation fuel key state).mono ?_
  intro _ after aside singlePass
  refine ⟨?_, aside.discharges⟩
  obtain ⟨f, changed⟩ := aside.tables
  rw [changed, elsewhere]
  exact singlePass

theorem pays_askOperand {recur : ExprId → Eval Grammar ExprId}
    (asked : ∀ id, Pays table (recur id)) (operand : ExprId) :
    Pays table (askOperand recur operand) :=
  keeps_get_bind fun _ => asked _

section Transformation

variable (isField : Tables.IsField table modifyTable)
  (evaluation : ∀ {before between : Grammar} {key : Key} {value : ExprId},
    (before.enter modifyTable key).Discharges between →
    between.arena.slot? before.arena.reserve.1 = some (.link none) → 0 < between.arena.unbound →
    before.Discharges (between.leave modifyTable key before.arena.reserve.1 value))
  (pays : ∀ {recur}, (∀ key, Pays table (recur key)) → ∀ key, Pays table (step recur key))

include isField

/-- Changing the table changes no slots. -/
theorem discharging_changeTable (f : Table Key ExprId → Table Key ExprId)
    (keeps : ∀ table, (f table).strategy = table.strategy) (grammar : Grammar) :
    Discharging table grammar (grammar.changeTable modifyTable f) := by
  intro singlePass
  refine ⟨?_, .aside rfl rfl⟩
  change (table (modifyTable f grammar.tables)).strategy = _
  rw [isField.table_modify, keeps]
  exact singlePass

include evaluation pays

/-- A key is evaluated with a link of its own. -/
theorem ensures_pass_discharges {fuel : Nat} {key : Key} {state : Grammar}
    (solves : ∀ key, Pays table ((transformation table modifyTable step).solve fuel key))
    (singlePass : (table state.tables).strategy = .singlePass) :
    Ensures ((transformation table modifyTable step).pass fuel key state.arena.reserve.1)
      (state.enter modifyTable key) fun _ after =>
        (table after.tables).strategy = .singlePass ∧ state.Discharges after := by
  have keepsStrategy : ∀ f (tables : Tables),
      (∀ table : Table Key ExprId, (f table).strategy = table.strategy) →
      (table tables).strategy = .singlePass →
      (table (modifyTable f tables)).strategy = .singlePass := by
    intro f tables keeps singlePass
    rw [isField.table_modify, keeps]
    exact singlePass
  refine ensures_transformation_pass ((pays solves key _).mono fun value between paid => ?_)
  obtain ⟨singlePass, discharges⟩ := paid (keepsStrategy _ _ (fun _ => rfl) singlePass)
  obtain ⟨same, counted⟩ := discharges.balances
  refine ⟨keepsStrategy _ _ (fun _ => rfl) singlePass,
    evaluation discharges ((same _).mpr (Arena.slot?_reserve state.arena)) ?_⟩
  rw [counted]
  exact Nat.succ_pos _

theorem pays_solve (fuel : Nat) (key : Key) :
    Pays table ((transformation table modifyTable step).solve fuel key) := by
  induction fuel generalizing key with
  | zero => exact fun _ => ensures_throw _ _
  | succ fuel inductionHypothesis =>
      intro state
      refine .of_imp fun singlePass => ?_
      cases looked : (table state.tables).lookup key with
      | known value =>
          exact (Recursion.ensures_solve_known looked).mpr (Discharging.refl state singlePass)
      | reentrant value =>
          refine (Recursion.ensures_solve_reentrant looked).mpr ?_
          exact discharging_changeTable isField Table.markReentered (fun _ => rfl) state singlePass
      | unknown =>
          cases inUse : (table state.tables).inUse with
          | true =>
              exact ensures_transformation_nested looked inUse
                (ensures_pass_discharges isField evaluation pays inductionHypothesis singlePass)
          | false =>
              obtain ⟨singlePass', started⟩ := discharging_changeTable isField Table.startPasses
                (fun _ => rfl) state singlePass
              refine ensures_transformation_outermost isField looked inUse singlePass ?_
              refine (ensures_pass_discharges isField evaluation pays inductionHypothesis
                singlePass').mono fun _ after ⟨singlePass, discharges⟩ => ⟨singlePass, ?_⟩
              obtain ⟨singlePass, committed⟩ := discharging_changeTable isField Table.commit
                (fun _ => rfl) after singlePass
              exact ⟨singlePass, .trans started (.trans discharges committed)⟩

end Transformation

/-! ## Simplification -/

theorem simplificationKeeps_discharging :
    SimplificationKeeps (Discharging Tables.simplified) where
  refl := .refl
  trans := .trans
  push := pays_push
  height _ := keeps_get_bind fun _ => pays_analysis heights_isField (fun _ _ => rfl) 0 _ _ _
  equal _ _ := keeps_get_bind fun _ =>
    pays_analysis equalities_isField (fun _ _ => rfl) true _ _ _

theorem pays_computeSimplified (id : ExprId) : Pays Tables.simplified (computeSimplified id) :=
  keeps_get_bind fun _ => pays_solve ⟨fun _ _ => rfl, fun _ _ _ => rfl, fun _ => rfl⟩
    .simplification simplificationKeeps_discharging.simplifyStep _ _

/-! ## Derivatives -/

theorem pays_nullable (id : ExprId) : Pays Tables.derivatives (computeNullable id) :=
  keeps_get_bind fun _ => pays_analysis
    nullability_isField (fun _ _ => rfl) false _ _ _

theorem pays_token (text : String) : Pays table (liftM (token text) : Eval Grammar ExprId) := by
  unfold token
  split
  · exact pays_push _
  · refine keeps_lift _ fun state singlePass => ⟨singlePass, ?_⟩
    have interned : state.Discharges { state with arena := state.arena.intern text } :=
      .aside rfl rfl
    exact interned.trans (.push { state with arena := state.arena.intern text } (.token text))

theorem pays_derivativeStep {recur : Derivation → Eval Grammar ExprId}
    (pays : ∀ key, Pays Tables.derivatives (recur key)) (key : Derivation) :
    Pays Tables.derivatives (derivativeStep recur key) := by
  obtain ⟨id, c⟩ := key
  have asked : ∀ operand, Pays Tables.derivatives (askOperand (fun id => recur ⟨id, c⟩) operand) :=
    pays_askOperand fun id => pays ⟨id, c⟩
  refine keeps_get_bind fun state => ?_
  cases state.get id with
  | any | empty | nil => exact pays_pure _
  | char c' =>
      dsimp only
      split
      · exact pays_pure _
      · exact pays_pure _
  | range low high =>
      dsimp only
      split
      · exact Pays.bind (pays_push (.char c)) asked
      · exact asked _
  | token text =>
      dsimp only
      split
      · exact asked _
      · rename_i first rest _
        refine Pays.bind (pays_push (.char first)) fun char => (asked char).bind fun head => ?_
        split
        · exact pays_pure head
        · exact (pays_token _).bind fun tail => pays_push _
  | alt left right =>
      exact (asked left).bind fun l => (asked right).bind fun r => pays_push _
  | cat first second =>
      refine (asked first).bind fun head => (pays_push _).bind fun cat => ?_
      refine (pays_nullable first).bind fun isNullable => ?_
      split
      · exact (asked second).bind fun tail => pays_push _
      · exact pays_pure cat
  | not lang => exact (asked lang).bind fun head => pays_push _
  | opt lang => exact Pays.bind (pays_push _) asked
  | plus lang => exact (asked lang).bind fun head => (pays_push _).bind fun star => pays_push _
  | star lang => exact (asked lang).bind fun head => pays_push _
  | rep lang count =>
      rcases count with (_ | _ | times) | _
      case finite.zero => exact pays_pure _
      case finite.succ.zero => exact asked lang
      case infinite =>
        exact (keeps_modify _ fun state singlePass => ⟨singlePass, .aside rfl rfl⟩).bind
          Discharging.trans fun _ => pays_pure _
      case finite.succ.succ =>
        exact (asked lang).bind fun head => (pays_push _).bind fun rest => pays_push _

theorem pays_computeDerivative (id : ExprId) (c : Char) :
    Pays Tables.derivatives (computeDerivative id c) :=
  keeps_get_bind fun _ => pays_solve ⟨fun _ _ => rfl, fun _ _ _ => rfl, fun _ => rfl⟩
    .derivation pays_derivativeStep _ _

end Grammar

end Residual
