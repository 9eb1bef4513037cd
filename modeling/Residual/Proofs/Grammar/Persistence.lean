import Residual.Proofs.Grammar.Derivative.Preservation
import Residual.Proofs.Grammar.Transitions
import Residual.Proofs.Memo.Persistence

/-!
# What the tables say lasts

No question that is asked of a grammar takes anything out of a table, whatever state the tables are
in, and its answer is in its own table then.  Evaluations of several tables are nested in each other
here: a simplification asks for heights and equalities, a derivative and a delta for nullability.
-/

set_option autoImplicit false

namespace Residual.Grammar

open Memo

variable {before after grammar : Grammar} {id x y : ExprId}

/-- What is settled in each of the tables lasts. -/
structure Persists (before after : Grammar) : Prop where
  nullability : before.tables.nullability.Persists after.tables.nullability
  heights : before.tables.heights.Persists after.tables.heights
  equalities : before.tables.equalities.Persists after.tables.equalities
  renderings : before.tables.renderings.Persists after.tables.renderings
  derivatives : before.tables.derivatives.Persists after.tables.derivatives
  deltas : before.tables.deltas.Persists after.tables.deltas
  simplified : before.tables.simplified.Persists after.tables.simplified

theorem Persists.of_eq (same : after.tables = before.tables) : before.Persists after := by
  constructor <;> rw [same] <;> exact .refl _

theorem Persists.refl (grammar : Grammar) : grammar.Persists grammar :=
  .of_eq rfl

theorem Persists.trans ⦃first second third : Grammar⦄ (earlier : first.Persists second)
    (later : second.Persists third) : first.Persists third where
  nullability := earlier.nullability.trans later.nullability
  heights := earlier.heights.trans later.heights
  equalities := earlier.equalities.trans later.equalities
  renderings := earlier.renderings.trans later.renderings
  derivatives := earlier.derivatives.trans later.derivatives
  deltas := earlier.deltas.trans later.deltas
  simplified := earlier.simplified.trans later.simplified

/-! ## One table and the others -/

section Parts

variable {Key Value : Type} [BEq Key] [Hashable Key] {table : Tables → Table Key Value}
  {modifyTable : (Table Key Value → Table Key Value) → Tables → Tables}

/-- The grammar with one of its tables emptied. -/
def without (modifyTable : (Table Key Value → Table Key Value) → Tables → Tables)
    (grammar : Grammar) : Grammar :=
  { grammar with tables := modifyTable (fun _ => default) grammar.tables }

/-- What is settled in the other tables lasts. -/
def Elsewhere (modifyTable : (Table Key Value → Table Key Value) → Tables → Tables)
    (before after : Grammar) : Prop :=
  (before.without modifyTable).Persists (after.without modifyTable)

theorem Elsewhere.of_eq (same : after.tables = before.tables) :
    Elsewhere modifyTable before after :=
  Persists.of_eq (congrArg (modifyTable fun _ => default) same)

/-- One of the tables whose entries are followed. -/
structure IsPart (table : Tables → Table Key Value)
    (modifyTable : (Table Key Value → Table Key Value) → Tables → Tables) : Prop
    extends Tables.IsField table modifyTable where
  persists_iff : ∀ before after : Grammar, before.Persists after ↔
    (table before.tables).Persists (table after.tables) ∧ Elsewhere modifyTable before after

namespace IsPart

variable (isPart : IsPart table modifyTable)

include isPart

theorem elsewhere_modify (f : Table Key Value → Table Key Value) (grammar : Grammar) :
    Elsewhere modifyTable grammar { grammar with tables := modifyTable f grammar.tables } :=
  Persists.of_eq (isPart.modify_modify _ f grammar.tables)

/-- Everything but the table of a function, and that too. -/
theorem persists_eq {function : Recursion Grammar Key Value}
    (isTable : ∀ grammar, function.table grammar = table grammar.tables) :
    function.Persists (Elsewhere modifyTable) = Persists := by
  funext before after
  unfold Recursion.Persists
  rw [isTable, isTable, isPart.persists_iff before after]

theorem confined_analysis (bottom : Value) (equation : Arena → Key → Reading Key Value Value) :
    (analysis table modifyTable bottom equation).Confined (Elsewhere modifyTable) where
  refl _ := .of_eq rfl
  trans := fun _ _ _ earlier later => Persists.trans earlier later
  table_modify f grammar := isPart.table_modify f grammar.tables
  modifyTable f grammar := isPart.elsewhere_modify f grammar
  noteRepeated _ := ⟨rfl, .of_eq rfl⟩
  noteExhausted _ _ := ⟨rfl, .of_eq rfl⟩
  bottom _ := keeps_pure (fun _ => ⟨rfl, .of_eq rfl⟩) bottom
  step {recur} keeps key := by
    rw [isPart.persists_eq fun _ => rfl] at keeps ⊢
    exact keeps_get_bind fun _ => keeps_run .refl .trans keeps _
  finish _ _ value := keeps_pure (fun _ => ⟨rfl, .of_eq rfl⟩) value

/-- What an evaluation that is not nested answers is settled then. -/
theorem ensures_solve [LawfulBEq Key] [BEq Value]
    {function : Recursion Grammar Key Value}
    (isTable : ∀ grammar, function.table grammar = table grammar.tables)
    (confined : function.Confined (Elsewhere modifyTable))
    (idle : ∀ key : Key, (table grammar.tables).pending[key]? = none) (fuel : Nat) (key : Key) :
    Ensures (function.solve fuel key) grammar fun value after =>
      grammar.Persists after ∧ (table after.tables).settled[key]? = some value := by
  apply (confined.ensures_solve fuel key grammar).mono
  rw [isPart.persists_eq isTable]
  rintro value after ⟨persists, settled⟩
  rw [isTable, isTable] at settled
  exact ⟨persists, settled (Table.not_inUse_iff.mpr idle)⟩

/-- Nothing settled is lost by evaluations. -/
theorem keeps_solve [LawfulBEq Key] [BEq Value]
    {function : Recursion Grammar Key Value}
    (isTable : ∀ grammar, function.table grammar = table grammar.tables)
    (confined : function.Confined (Elsewhere modifyTable)) (fuel : Nat) (key : Key) :
    Keeps Persists (function.solve fuel key) := by
  rw [← isPart.persists_eq isTable]
  exact confined.keeps_solve fuel key

end IsPart

theorem confined_transformation {table : Tables → Table Key ExprId}
    {modifyTable : (Table Key ExprId → Table Key ExprId) → Tables → Tables}
    (isPart : IsPart table modifyTable)
    {step : (Key → Eval Grammar ExprId) → Key → Eval Grammar ExprId}
    (keepsStep : ∀ {recur : Key → Eval Grammar ExprId}, (∀ key, Keeps Persists (recur key)) →
      ∀ key, Keeps Persists (step recur key)) :
    (transformation table modifyTable step).Confined (Elsewhere modifyTable) where
  refl _ := .of_eq rfl
  trans := fun _ _ _ earlier later => Persists.trans earlier later
  table_modify f grammar := isPart.table_modify f grammar.tables
  modifyTable f grammar := isPart.elsewhere_modify f grammar
  noteRepeated _ := ⟨rfl, .of_eq rfl⟩
  noteExhausted _ _ := ⟨rfl, .of_eq rfl⟩
  bottom _ := keeps_lift reserve fun _ => ⟨rfl, .of_eq rfl⟩
  step {recur} keeps key := by
    rw [isPart.persists_eq fun _ => rfl] at keeps ⊢
    exact keepsStep keeps key
  finish _ link value := by
    refine fun grammar => (ensures_bind _ _ _).mpr ((Eval.ensures_lift _ _).mpr ?_)
    exact (ensures_pure _ _).mpr ⟨rfl, .of_eq rfl⟩

end Parts

/-! ## The seven tables -/

theorem nullability_isPart : IsPart Tables.nullability
    fun f tables => { tables with nullability := f tables.nullability } where
  toIsField := nullability_isField
  persists_iff before after := by
    constructor
    · intro persists
      exact ⟨persists.nullability, { persists with nullability := .refl _ }⟩
    · rintro ⟨own, elsewhere⟩
      exact { elsewhere with nullability := own }

theorem heights_isPart : IsPart Tables.heights
    fun f tables => { tables with heights := f tables.heights } where
  toIsField := heights_isField
  persists_iff before after := by
    constructor
    · intro persists
      exact ⟨persists.heights, { persists with heights := .refl _ }⟩
    · rintro ⟨own, elsewhere⟩
      exact { elsewhere with heights := own }

theorem equalities_isPart : IsPart Tables.equalities
    fun f tables => { tables with equalities := f tables.equalities } where
  toIsField := equalities_isField
  persists_iff before after := by
    constructor
    · intro persists
      exact ⟨persists.equalities, { persists with equalities := .refl _ }⟩
    · rintro ⟨own, elsewhere⟩
      exact { elsewhere with equalities := own }

theorem renderings_isPart : IsPart Tables.renderings
    fun f tables => { tables with renderings := f tables.renderings } where
  toIsField := renderings_isField
  persists_iff before after := by
    constructor
    · intro persists
      exact ⟨persists.renderings, { persists with renderings := .refl _ }⟩
    · rintro ⟨own, elsewhere⟩
      exact { elsewhere with renderings := own }

theorem derivatives_isPart : IsPart Tables.derivatives
    fun f tables => { tables with derivatives := f tables.derivatives } where
  toIsField := ⟨fun _ _ => rfl, fun _ _ _ => rfl, fun _ => rfl⟩
  persists_iff before after := by
    constructor
    · intro persists
      exact ⟨persists.derivatives, { persists with derivatives := .refl _ }⟩
    · rintro ⟨own, elsewhere⟩
      exact { elsewhere with derivatives := own }

theorem deltas_isPart : IsPart Tables.deltas
    fun f tables => { tables with deltas := f tables.deltas } where
  toIsField := ⟨fun _ _ => rfl, fun _ _ _ => rfl, fun _ => rfl⟩
  persists_iff before after := by
    constructor
    · intro persists
      exact ⟨persists.deltas, { persists with deltas := .refl _ }⟩
    · rintro ⟨own, elsewhere⟩
      exact { elsewhere with deltas := own }

theorem simplified_isPart : IsPart Tables.simplified
    fun f tables => { tables with simplified := f tables.simplified } where
  toIsField := ⟨fun _ _ => rfl, fun _ _ _ => rfl, fun _ => rfl⟩
  persists_iff before after := by
    constructor
    · intro persists
      exact ⟨persists.simplified, { persists with simplified := .refl _ }⟩
    · rintro ⟨own, elsewhere⟩
      exact { elsewhere with simplified := own }

/-! ## What evaluations keep -/

theorem keeps_nullable (id : ExprId) : Keeps Persists (computeNullable id) :=
  keeps_get_bind fun _ =>
    nullability_isPart.keeps_solve (fun _ => rfl) (nullability_isPart.confined_analysis _ _) _ _

theorem keeps_height (id : ExprId) : Keeps Persists (computeHeight id) :=
  keeps_get_bind fun _ =>
    heights_isPart.keeps_solve (fun _ => rfl) (heights_isPart.confined_analysis _ _) _ _

theorem keeps_equal (x y : ExprId) : Keeps Persists (computeEqual x y) :=
  keeps_get_bind fun _ =>
    equalities_isPart.keeps_solve (fun _ => rfl) (equalities_isPart.confined_analysis _ _) _ _

/-- Making expressions leaves the tables as they are. -/
theorem keeps_spared {Answer : Type} {computation : StateM Grammar Answer}
    (spares : Spares computation) :
    Keeps Persists (liftM computation : Eval Grammar Answer) :=
  keeps_lift _ fun grammar => .of_eq (spares grammar)

theorem simplificationKeeps_persists : SimplificationKeeps Persists where
  refl := .refl
  trans := .trans
  push e := keeps_spared (spares_push e)
  height := keeps_height
  equal := keeps_equal

theorem confined_simplifications : simplifications.Confined
    (Elsewhere fun f tables => { tables with simplified := f tables.simplified }) :=
  confined_transformation simplified_isPart simplificationKeeps_persists.simplifyStep

theorem derivationKeeps_persists : DerivationKeeps Persists where
  refl := .refl
  trans := .trans
  push e := keeps_spared (spares_push e)
  token text := keeps_spared (spares_token text)
  nullable := keeps_nullable
  fail _ := keeps_modify _ fun _ => .of_eq rfl

theorem confined_derivatives : derivatives.Confined
    (Elsewhere fun f tables => { tables with derivatives := f tables.derivatives }) :=
  confined_transformation derivatives_isPart derivationKeeps_persists.derivativeStep

theorem confined_deltas : deltas.Confined
    (Elsewhere fun f tables => { tables with deltas := f tables.deltas }) where
  refl _ := .of_eq rfl
  trans := fun _ _ _ earlier later => Persists.trans earlier later
  table_modify _ _ := rfl
  modifyTable f grammar := deltas_isPart.elsewhere_modify f grammar
  noteRepeated _ := ⟨rfl, .of_eq rfl⟩
  noteExhausted _ _ := ⟨rfl, .of_eq rfl⟩
  bottom _ := keeps_pure (fun _ => ⟨rfl, .of_eq rfl⟩) ExprId.nil
  step {recur} keeps key := by
    rw [deltas_isPart.persists_eq fun _ => rfl] at keeps ⊢
    exact derivationKeeps_persists.deltaStep keeps key
  finish _ _ value := keeps_pure (fun _ => ⟨rfl, .of_eq rfl⟩) value

end Residual.Grammar
