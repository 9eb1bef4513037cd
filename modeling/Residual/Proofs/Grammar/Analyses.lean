import Mathlib.Data.Finset.Image
import Residual.Grammar.Rendering
import Residual.Grammar.Analysis
import Residual.Proofs.Arena.Solutions
import Residual.Proofs.Memo.Evaluation

/-!
# Analyses answer

An analysis leaves everything of a grammar as it is but its own table and the journal, and it
follows the system of its equations in the arena.  Heights and renderings are total.
-/

set_option autoImplicit false

namespace Residual

open Memo

variable {Key Value : Type} [BEq Key] [Hashable Key]

/-- A table of a grammar and the way to change it. -/
structure Tables.IsField (table : Tables → Table Key Value)
    (modifyTable : (Table Key Value → Table Key Value) → Tables → Tables) : Prop where
  table_modify : ∀ f tables, table (modifyTable f tables) = f (table tables)
  modify_modify : ∀ f g tables, modifyTable f (modifyTable g tables) = modifyTable (f ∘ g) tables
  modify_id : ∀ tables, modifyTable id tables = tables

/-- What the table says about cycles can be relied on in this sense: structural recursion meets no
cycle, and for least solutions all values must have been iterated until none changed. -/
def Memo.Table.Trusts (table : Table Key Value) (sense : Sense) : Prop :=
  sense = .least → table.truncated = false

/-- Once a table ran out of passes it stays so. -/
theorem Memo.Table.Trusts.of_later {before after : Table Key Value} {sense : Sense}
    (trusts : after.Trusts sense) (later : before.truncated = true → after.truncated = true) :
    before.Trusts sense := by
  intro isLeast
  by_contra wasTruncated
  have truncated := later (Bool.eq_true_of_not_eq_false wasTruncated)
  simp [trusts isLeast] at truncated

/-- Where what is asked for goes down, passes never run out. -/
theorem Memo.EquationSystem.Settles.truncated_of_acc {system : EquationSystem Key Value}
    {base final : Table Key Value} {root : Key} {value : Value}
    (settles : system.Settles base root value final)
    (accessible : Acc (fun other key => system.Asks key other) root)
    (truncated : final.truncated = true) : base.truncated = true := by
  refine (settles.circular truncated).resolve_right ?_
  rintro ⟨key, path, cycle⟩
  refine Arena.not_transGen_of_acc ?_ cycle
  clear cycle
  induction path with
  | refl => exact accessible
  | tail _ asks inductionHypothesis => exact inductionHypothesis.inv asks.1

/-- The numbers of an arena. -/
def Arena.ids (arena : Arena) : Finset ExprId :=
  (Finset.range arena.size).image ExprId.mk

@[simp]
theorem Arena.mem_ids {arena : Arena} {id : ExprId} : id ∈ arena.ids ↔ id.number < arena.size := by
  unfold Arena.ids
  rw [Finset.mem_image]
  constructor
  · rintro ⟨number, member, rfl⟩
    exact Finset.mem_range.mp member
  · intro inside
    exact ⟨id.number, Finset.mem_range.mpr inside, rfl⟩

theorem Arena.card_ids_le (arena : Arena) : arena.ids.card ≤ arena.size := by
  exact Finset.card_image_le.trans (Finset.card_range _).le

namespace Grammar

/-- Two grammars differ in one of the tables and in the journal at most. -/
structure Aside (modifyTable : (Table Key Value → Table Key Value) → Tables → Tables)
    (before after : Grammar) : Prop where
  config : after.config = before.config
  arena : after.arena = before.arena
  fault : after.fault = before.fault
  tables : ∃ f, after.tables = modifyTable f before.tables

variable {table : Tables → Table Key Value}
  {modifyTable : (Table Key Value → Table Key Value) → Tables → Tables} {before : Grammar}

theorem Aside.refl (isField : Tables.IsField table modifyTable) (grammar : Grammar) :
    Aside modifyTable grammar grammar :=
  ⟨rfl, rfl, rfl, id, (isField.modify_id _).symm⟩

theorem analysis_follows (isField : Tables.IsField table modifyTable) {bottom : Value}
    {equation : Arena → Key → Reading Key Value Value} {system : EquationSystem Key Value}
    (sameEquation : ∀ key ∈ system.keys, system.equation key = equation before.arena key)
    (sameBottom : system.bottom = fun _ => bottom) :
    (analysis table modifyTable bottom equation).Follows (Aside modifyTable before) system where
  table_modify f state := isField.table_modify f state.tables
  context_modify f _ aside := by
    obtain ⟨config, arena, fault, g, tables⟩ := aside
    refine ⟨config, arena, fault, f ∘ g, ?_⟩
    rw [← isField.modify_modify, ← tables]
    rfl
  table_noteRepeated _ := rfl
  context_noteRepeated aside := ⟨aside.config, aside.arena, aside.fault, aside.tables⟩
  table_noteExhausted _ _ := rfl
  context_giveUp _ aside := by
    obtain ⟨config, arena, fault, f, tables⟩ := aside
    refine ⟨config, arena, fault, (fun table => table.commit.markTruncated) ∘ f, ?_⟩
    rw [← isField.modify_modify, ← tables]
    rfl
  bottom_eq _ := by
    rw [sameBottom]
    rfl
  finish_eq _ _ _ := rfl
  step_eq {state} recur key inKeys aside := by
    rw [sameEquation key inKeys, ← aside.arena]
    rfl

/-- An analysis whose equations always ask for the same keys settles its table and touches nothing
else. -/
theorem yields_analysis_static [LawfulBEq Key] [DecidableEq Key] [BEq Value]
    [LawfulBEq Value] (isField : Tables.IsField table modifyTable) {bottom : Value}
    {equation : Arena → Key → Reading Key Value Value} {system : EquationSystem Key Value}
    (sameEquation : ∀ key ∈ system.keys, system.equation key = equation before.arena key)
    (sameBottom : system.bottom = fun _ => bottom) (isStatic : system.IsStatic)
    (settledBound : ∀ {key : Key} {value : Value},
      (table before.tables).settled[key]? = some value → system.Bound key value)
    (idle : ∀ key : Key, (table before.tables).pending[key]? = none) {root : Key} {fuel : Nat}
    (rootInKeys : root ∈ system.keys) (enough : system.keys.card < fuel) :
    ((analysis table modifyTable bottom equation).solve fuel root).Yields before
      fun value after => Aside modifyTable before after ∧
        system.Settles (table before.tables) root value (table after.tables) :=
  (analysis_follows isField sameEquation sameBottom).yields_solve_static settledBound isStatic idle
    rootInKeys enough (.refl isField before) rfl

/-- An analysis records values within the bound of its system, and touches nothing else. -/
theorem yields_analysis_records [LawfulBEq Key] [DecidableEq Key] [BEq Value]
    [LawfulBEq Value] (isField : Tables.IsField table modifyTable) {bottom : Value}
    {equation : Arena → Key → Reading Key Value Value} (system : EquationSystem Key Value)
    (sameEquation : ∀ key ∈ system.keys, system.equation key = equation before.arena key)
    (sameBottom : system.bottom = fun _ => bottom)
    (records : (table before.tables).Records system.Bound) {root : Key} {fuel : Nat}
    (rootInKeys : root ∈ system.keys) (enough : system.keys.card < fuel) :
    ((analysis table modifyTable bottom equation).solve fuel root).Yields before
      fun value after => Aside modifyTable before after ∧
        (table after.tables).Records system.Bound ∧ system.Bound root value := by
  refine ((analysis_follows isField sameEquation sameBottom).yields_solve records.right records.idle
    rootInKeys enough (.refl isField before) rfl).mono ?_
  rintro value after ⟨aside, ⟨same, settled⟩ | ⟨Fresh, outcome⟩⟩
  · have same : table after.tables = table before.tables := same
    rw [same]
    exact ⟨aside, records, records.right settled⟩
  · have right : ∀ {key : Key} {value : Value},
        (table after.tables).settled[key]? = some value → system.Bound key value := by
      intro key value found
      rcases outcome.new found with settled | ⟨_, _, _, bound⟩
      · exact records.right settled
      · exact bound
    exact ⟨aside, ⟨outcome.idle, right⟩, right outcome.answered⟩

end Grammar

/-! ## Heights and renderings -/

section Total

variable (arena : Arena) (id : ExprId)

theorem Arena.heightEquation_asks :
    (arena.heightEquation id).Asks fun other => arena.Child id other :=
  (Reading.Asks.mapM fun _ child => .read child).bind fun _ => .pure _

theorem Arena.heightEquation_needs {other : ExprId} (child : arena.Child id other) :
    (arena.heightEquation id).Needs other :=
  .bind_left _ (.mapM child (.read other))

theorem Arena.renderingEquation_asks :
    (arena.renderingEquation id).Asks fun other => arena.Child id other := by
  have asked : ∀ o ∈ (arena.get id).operands, arena.Child id (arena.resolve o) := fun o member =>
    mem_operands_iff.mpr ⟨o, member, rfl⟩
  refine .bind ?_ fun _ => .pure _
  generalize arena.get id = e at asked
  cases e with
  | any | empty | nil | char _ | range _ _ | token _ => exact .pure _
  | alt x y | cat x y =>
      refine ((Reading.Asks.read (asked x (by simp [Expr.operands]))).bind fun _ => .pure _).bind
        fun _ => ?_
      refine ((Reading.Asks.read (asked y (by simp [Expr.operands]))).bind fun _ => .pure _).bind
        fun _ => ?_
      exact .pure _
  | not x | opt x | plus x | star x | rep x _ =>
      refine ((Reading.Asks.read (asked x (by simp [Expr.operands]))).bind fun _ => .pure _).bind
        fun _ => ?_
      exact .pure _

end Total

namespace Grammar

section Total

variable {Value : Type} {table : Tables → Table ExprId Value} [BEq Value] [LawfulBEq Value]
  {modifyTable : (Table ExprId Value → Table ExprId Value) → Tables → Tables} {before : Grammar}

/-- An analysis by expressions that asks for operands answers. -/
theorem yields_analysis_solve (isField : Tables.IsField table modifyTable)
    (wellFormed : before.arena.WellFormed) {bottom : Value}
    {equation : Arena → ExprId → Reading ExprId Value Value}
    (asks : ∀ id, (equation before.arena id).Asks fun other => before.arena.Child id other)
    (idle : ∀ key : ExprId, (table before.tables).pending[key]? = none) {id : ExprId}
    (inside : id.number < before.arena.size) :
    ((analysis table modifyTable bottom equation).solve (before.arena.size + 1) id).Yields before
      fun _ after => Aside modifyTable before after ∧
        ∀ key : ExprId, (table after.tables).pending[key]? = none := by
  let system : EquationSystem ExprId Value :=
    { equation := equation before.arena
      bottom := fun _ => bottom
      keys := before.arena.ids
      Asks := before.arena.Child
      Bound := fun _ _ => True
      asks := fun id _ => (asks id).mono fun _ child =>
        ⟨child, Arena.mem_ids.mpr (wellFormed.child_lt child)⟩
      bottom_bound := fun _ _ _ => trivial
      equation_bound := fun _ _ _ _ => trivial }
  refine (yields_analysis_records isField system (fun _ _ => rfl) rfl
    ⟨idle, fun _ => trivial⟩ (Arena.mem_ids.mpr inside)
    (Nat.lt_succ_of_le before.arena.card_ids_le)).mono ?_
  rintro value after ⟨aside, records, _⟩
  exact ⟨aside, records.idle⟩

end Total

variable {grammar : Grammar} {id : ExprId}

theorem heights_isField : Tables.IsField Tables.heights
    fun f tables => { tables with heights := f tables.heights } :=
  ⟨fun _ _ => rfl, fun _ _ _ => rfl, fun _ => rfl⟩

theorem renderings_isField : Tables.IsField Tables.renderings
    fun f tables => { tables with renderings := f tables.renderings } :=
  ⟨fun _ _ => rfl, fun _ _ _ => rfl, fun _ => rfl⟩

theorem yields_computeRendering (wellFormed : grammar.arena.WellFormed)
    (idle : ∀ key : ExprId, grammar.tables.renderings.pending[key]? = none)
    (inside : id.number < grammar.arena.size) :
    (computeRendering id).Yields grammar fun _ after =>
      (∃ renderings, after.tables = { grammar.tables with renderings } ∧
        ∀ key : ExprId, renderings.pending[key]? = none) ∧
      after.config = grammar.config ∧ after.arena = grammar.arena ∧ after.fault = grammar.fault := by
  unfold computeRendering
  simp only [Eval.yields_bind, Eval.yields_get]
  refine (yields_analysis_solve renderings_isField wellFormed (Arena.renderingEquation_asks _) idle
    (wellFormed.resolve_lt inside)).mono ?_
  rintro text after ⟨⟨config, arena, fault, f, tables⟩, idle⟩
  rw [tables] at idle
  exact ⟨⟨_, tables, idle⟩, config, arena, fault⟩

end Grammar

end Residual
