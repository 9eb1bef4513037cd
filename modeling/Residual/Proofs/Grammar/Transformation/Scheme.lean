import Residual.Proofs.Arena.History
import Residual.Proofs.Grammar.Analyses

/-!
# Transformations and what a step may rely on

A transformation reserves a link for every key and binds it when the key's evaluation ends.  A
`Scheme` is a transformation with what its proof is about, and `Lawful` collects what has to be
shown about its parts.  The step is seen through a `Frame`: some invariant, and an order in which
what was told stays true.
-/

set_option autoImplicit false

namespace Residual.Grammar

open Memo Eval

/-- Asks for what becomes of an operand. -/
def askOperand (recur : ExprId → Eval Grammar ExprId) (operand : ExprId) :
    Eval Grammar ExprId := do
  recur ((← get).resolve operand)

variable {Key : Type} [BEq Key] [Hashable Key]

/-- A transformation that starts in the grammar `base`, with what its proof is about: a side
condition of all states, an order of states, the rule by which results are made, and the keys that
come into question.  The keys of the finite set `keys` can be nested in each other; a key outside
of it has only keys of lower rank below it.  What is known of a key and the keys that its evaluation
asks for, in an arena and in all that it grows to, is up to the relation `Asks`. -/
structure Scheme (Key : Type) [BEq Key] [Hashable Key] where
  table : Tables → Table Key ExprId
  modifyTable : (Table Key ExprId → Table Key ExprId) → Tables → Tables
  step : (Key → Eval Grammar ExprId) → Key → Eval Grammar ExprId
  base : Grammar
  Side : Grammar → Prop
  Later : Grammar → Grammar → Prop
  Rule : Grammar → Arena → (Key → ExprId → Prop) → Key → ExprId → Prop
  Valid : Arena → Key → Prop
  Asks : Arena → Key → Key → Prop
  keys : Finset Key
  weight : Nat
  rank : Key → Nat

namespace Scheme

variable (scheme : Scheme Key) {key other : Key} {value link : ExprId} {state after : Grammar}
  {stack : Finset Key} {results : List (Result Key)} {fuel : Nat}

def function : Recursion Grammar Key ExprId :=
  transformation scheme.table scheme.modifyTable scheme.step

/-- The evaluation of the key may ask for itself, by way of other keys. -/
def Circular (arena : Arena) (key : Key) : Prop :=
  Relation.TransGen (scheme.Asks arena) key key

/-- What the evaluation of a key does between its steps: the arena grows and the table changes. -/
structure Touches (state after : Grammar) : Prop where
  config : after.config = state.config
  fault : after.fault = state.fault
  tables : ∃ f, after.tables = scheme.modifyTable f state.tables
  wellFormed : after.arena.WellFormed
  grows : state.arena.Grows after.arena
  fromBase : scheme.base.arena.Extends after.arena

/-- What a step does on its own: it adds expressions and asks analyses. -/
structure Moves (state after : Grammar) : Prop where
  wellFormed : after.arena.WellFormed
  extending : state.arena.Extends after.arena
  exprs : ∀ {id slot}, state.arena.size ≤ id.number → after.arena.slot? id = some slot →
    ∃ e, slot = .expr e
  settled_eq : (scheme.table after.tables).settled = (scheme.table state.tables).settled
  pending_eq : (scheme.table after.tables).pending = (scheme.table state.tables).pending
  strategy_eq : (scheme.table after.tables).strategy = (scheme.table state.tables).strategy
  side : scheme.Side after
  later : scheme.Later state after

/-- What a step may rely on. -/
structure Frame (Invariant : Grammar → Prop) (Ahead : Grammar → Grammar → Prop)
    (Holds : Grammar → Key → ExprId → Prop) : Prop where
  wellFormed : ∀ {state}, Invariant state → state.arena.WellFormed
  fromBase : ∀ {state}, Invariant state → scheme.base.arena.Extends state.arena
  side : ∀ {state}, Invariant state → scheme.Side state
  refl : ∀ state, Ahead state state
  trans : ∀ {first second third}, Ahead first second → Ahead second third → Ahead first third
  grows : ∀ {state after}, Ahead state after → state.arena.Grows after.arena
  later : ∀ {state after}, Ahead state after → scheme.Later state after
  keep : ∀ {state after}, Ahead state after →
    ∀ key value, Holds state key value → Holds after key value
  move : ∀ {state after}, Invariant state → scheme.Moves state after →
    Invariant after ∧ Ahead state after

/-- The invariant still holds, and only slots were added to the arena. -/
structure Onward (Invariant : Grammar → Prop) (Ahead : Grammar → Grammar → Prop)
    (state after : Grammar) : Prop where
  invariant : Invariant after
  ahead : Ahead state after
  extending : state.arena.Extends after.arena

/-- The answer of a step: it was made by the rule. -/
def Made (Invariant : Grammar → Prop) (Ahead : Grammar → Grammar → Prop)
    (Holds : Grammar → Key → ExprId → Prop) (key : Key) (state : Grammar) (value : ExprId)
    (after : Grammar) : Prop :=
  Invariant after ∧ Ahead state after ∧ value.number < after.arena.size ∧
    scheme.Rule after after.arena (Holds after) key value

/-- The answer of a nested call. -/
def Answered (Invariant : Grammar → Prop) (Ahead : Grammar → Grammar → Prop)
    (Holds : Grammar → Key → ExprId → Prop) (key : Key) (state : Grammar) (value : ExprId)
    (after : Grammar) : Prop :=
  Invariant after ∧ Ahead state after ∧ value.number < after.arena.size ∧ Holds after key value

section Steps

variable {scheme} {Invariant : Grammar → Prop} {Ahead : Grammar → Grammar → Prop}
  {Holds : Grammar → Key → ExprId → Prop} (frame : scheme.Frame Invariant Ahead Holds)
  (isField : Tables.IsField scheme.table scheme.modifyTable)
  (touch : ∀ {state after}, scheme.Side state → scheme.Touches state after →
    scheme.Side after ∧ scheme.Later state after)

include frame isField touch

omit isField touch in
theorem Frame.onward_refl (invariant : Invariant state) : Onward Invariant Ahead state state :=
  ⟨invariant, frame.refl state, .refl _⟩

omit isField touch in
theorem Frame.onward_trans {first second third : Grammar}
    (before : Onward Invariant Ahead first second) (onward : Onward Invariant Ahead second third) :
    Onward Invariant Ahead first third :=
  ⟨onward.invariant, frame.trans before.ahead onward.ahead,
    before.extending.trans onward.extending⟩

omit isField touch in
/-- The invariant may say more, as long as that stays true. -/
theorem Frame.and {Lasting : Grammar → Prop}
    (lasts : ∀ {state after}, Ahead state after → Lasting state → Lasting after) :
    scheme.Frame (fun state => Invariant state ∧ Lasting state) Ahead Holds where
  wellFormed invariant := frame.wellFormed invariant.1
  fromBase invariant := frame.fromBase invariant.1
  side invariant := frame.side invariant.1
  refl := frame.refl
  trans := frame.trans
  grows := frame.grows
  later := frame.later
  keep := frame.keep
  move invariant moves := by
    obtain ⟨isInvariant, ahead⟩ := frame.move invariant.1 moves
    exact ⟨⟨isInvariant, lasts ahead invariant.2⟩, ahead⟩

/-- The arena gets more expressions. -/
theorem Frame.extend {arena : Arena} (invariant : Invariant state) (wellFormed : arena.WellFormed)
    (extending : state.arena.Extends arena)
    (exprs : ∀ {id slot}, state.arena.size ≤ id.number → arena.slot? id = some slot →
      ∃ e, slot = .expr e) :
    Invariant { state with arena } ∧ Ahead state { state with arena } := by
  have touches : scheme.Touches state { state with arena } :=
    { config := rfl
      fault := rfl
      tables := ⟨id, (isField.modify_id _).symm⟩
      wellFormed := wellFormed
      grows := extending.grows
      fromBase := (frame.fromBase invariant).trans extending }
  obtain ⟨side, later⟩ := touch (frame.side invariant) touches
  exact frame.move invariant ⟨wellFormed, extending, exprs, rfl, rfl, rfl, side, later⟩

/-- Adding an expression is a move. -/
theorem Frame.yields_push {e : Expr ExprId} (invariant : Invariant state)
    (operands : ∀ o ∈ e.operands, o.number < state.arena.size) :
    (liftM (push e) : Eval Grammar ExprId).Yields state fun id after =>
      Onward Invariant Ahead state after ∧
        id.number < after.arena.size ∧ after.arena.slot? id = some (.expr e) ∧
        id = (state.arena.push e).1 := by
  rw [yields_lift]
  have wellFormed := frame.wellFormed invariant
  obtain ⟨invariant', ahead⟩ := frame.extend isField touch invariant (wellFormed.push operands)
    (Arena.extends_push state.arena e) Arena.exists_expr_of_push
  have found := Arena.slot?_push wellFormed e
  exact ⟨⟨invariant', ahead, Arena.extends_push state.arena e⟩, Arena.lt_size_of_slot? found, found,
    rfl⟩

end Steps

/-- What the parts of a scheme have to satisfy. -/
structure Lawful : Prop where
  isField : Tables.IsField scheme.table scheme.modifyTable
  settled_lt : ∀ {key : Key} {value : ExprId},
    (scheme.table scheme.base.tables).settled[key]? = some value →
    value.number < scheme.base.arena.size
  later_refl : ∀ state, scheme.Later state state
  later_trans : ∀ {first second third}, scheme.Later first second → scheme.Later second third →
    scheme.Later first third
  touch : ∀ {state after}, scheme.Side state → scheme.Touches state after →
    scheme.Side after ∧ scheme.Later state after
  rule_mono : ∀ {state after arena told told' key value}, scheme.Later state after →
    (∀ key answer, told key answer → told' key answer) →
    scheme.Rule state arena told key value → scheme.Rule after arena told' key value
  valid_grows : ∀ {before after : Arena} {key}, scheme.Valid before key → before.Grows after →
    before.WellFormed → after.WellFormed → scheme.Valid after key
  asks_grows : ∀ {before after : Arena} {key other}, before.Grows after →
    scheme.Asks before key other → scheme.Asks after key other
  rank_lt : ∀ {arena key}, scheme.Valid arena key → scheme.rank key < scheme.weight
  step_yields : ∀ {Invariant Ahead Holds recur key state},
    scheme.Frame Invariant Ahead Holds →
    (∀ {other state}, Invariant state → scheme.Valid state.arena other →
      scheme.Asks state.arena key other →
      key ∈ scheme.keys ∨ scheme.rank other < scheme.rank key →
      (recur other).Yields state (Answered Invariant Ahead Holds other state)) →
    Invariant state → scheme.Valid state.arena key →
    (scheme.step recur key).Yields state (scheme.Made Invariant Ahead Holds key state)

end Scheme

end Residual.Grammar
