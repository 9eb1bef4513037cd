import Residual.Arena.Basic
import Residual.Config
import Residual.Journal
import Residual.Memo.Solve

/-!
# Grammars

A grammar is an arena of expressions with the tables of the algorithms on them.  Every operation
is a state transition: constructors only add expressions, and questions fill the tables.

The tables are keyed by resolved expression numbers, so that a link and what it stands for have
one entry.  Defining a link clears all of them, since unbound links were seen as `∅` before.
-/

set_option autoImplicit false

namespace Residual

/-- Why an operation on a grammar failed. -/
inductive Grammar.Error where
  | notSingleChar (text : String)
  | invalidRange (low high : Char)
  /-- A repetition without a count was to be derived.  Simplification replaces them by stars. -/
  | unboundedRepetition
  | undefinedReference (link : ExprId)
  | alreadyDefined (link : ExprId)
  | notAReference (expr : ExprId)
  deriving DecidableEq

def Grammar.Error.message : Grammar.Error → String
  | notSingleChar text => "expected a single character, got " ++ Text.quote text
  | invalidRange low high =>
      "invalid range [" ++ low.toString ++ "-" ++ high.toString ++ "], `" ++ low.toString
        ++ "` is greater than `" ++ high.toString ++ "`"
  | unboundedRepetition => "repetition count must be a finite non-negative integer"
  | undefinedReference link => "reference " ++ toString link ++ " is used but never defined"
  | alreadyDefined link => "reference " ++ toString link ++ " is already defined"
  | notAReference expr => toString expr ++ " is not a reference"

/-- The question for the derivative of a language with respect to a character. -/
structure Derivation where
  lang : ExprId
  c : Char
  deriving DecidableEq

instance : Hashable Derivation where
  hash derivation := .ofNat (derivation.lang.number * 256 + derivation.c.toNat)

instance : Hashable (ExprId × ExprId) where
  hash pair :=
    let larger := max pair.1.number pair.2.number
    .ofNat (larger * larger + larger + pair.1.number - pair.2.number)

/-- The tables of the algorithms on expressions. -/
structure Tables where
  nullability : Memo.Table ExprId Bool
  heights : Memo.Table ExprId Nat
  equalities : Memo.Table (ExprId × ExprId) Bool
  renderings : Memo.Table ExprId String
  derivatives : Memo.Table Derivation ExprId
  deltas : Memo.Table ExprId ExprId
  simplified : Memo.Table ExprId ExprId
  deriving Inhabited

/-- Tables without any entry.  Only truth values are iterated to a fixed point. -/
def Tables.empty (config : FixpointConfig) : Tables where
  nullability := .empty (.iterate config.maxPasses)
  heights := .empty .singlePass
  equalities := .empty (.iterate config.maxPasses)
  renderings := .empty .singlePass
  derivatives := .empty .singlePass
  deltas := .empty .singlePass
  simplified := .empty .singlePass

/-- Regular language expressions with the tables of the algorithms on them. -/
structure Grammar where
  config : Config
  arena : Arena
  tables : Tables
  /-- The first fault met by the derivation in progress. -/
  fault : Option Grammar.Error := none
  journal : Journal := {}
  deriving Inhabited

namespace Grammar

open Memo

def ofConfig (config : Config) : Grammar where
  config
  arena := .initial
  tables := .empty config.fixpoint

/-- The number of expressions and links, those made by algorithms included. -/
def size (grammar : Grammar) : Nat :=
  grammar.arena.size

/-- No expression was made beside the three that every grammar has. -/
def isPristine (grammar : Grammar) : Bool :=
  grammar.size == 3

/-- What a number stands for: an expression or an unbound link. -/
def resolve (grammar : Grammar) (id : ExprId) : ExprId :=
  grammar.arena.resolve id

/-- The expression that a number stands for.  An unbound link is seen as `∅`. -/
protected def get (grammar : Grammar) (id : ExprId) : Expr ExprId :=
  grammar.arena.get id

def note (event : Event) (grammar : Grammar) : Grammar :=
  { grammar with journal := grammar.journal.note event }

/-- Forgets all results of algorithms.  The expressions stay. -/
def clearTables (grammar : Grammar) : Grammar :=
  { grammar with tables := .empty grammar.config.fixpoint }

/-- Adds an expression to the arena, unless it is one of the three that are shared. -/
def push (e : Expr ExprId) : StateM Grammar ExprId :=
  modifyGet fun grammar =>
    let (id, arena) := grammar.arena.push e
    (id, { grammar with arena })

/-- Adds an unbound link to the arena. -/
def reserve : StateM Grammar ExprId :=
  modifyGet fun grammar =>
    let (id, arena) := grammar.arena.reserve
    (id, { grammar with arena })

/-- Binds a link, and tells whether it was unbound. -/
def bindLink (link target : ExprId) : StateM Grammar Bool :=
  modifyGet fun grammar =>
    let (wasUnbound, arena) := grammar.arena.bind link target
    (wasUnbound, { grammar with arena })

/-- A memoized function of expressions whose equations are readings of the arena. -/
def analysis {Key Value : Type} [BEq Key] [Hashable Key] (table : Tables → Table Key Value)
    (modifyTable : (Table Key Value → Table Key Value) → Tables → Tables)
    (bottom : Value) (equation : Arena → Key → Reading Key Value Value) :
    Recursion Grammar Key Value :=
  .ofReadings (fun grammar => table grammar.tables)
    (fun f grammar => { grammar with tables := modifyTable f grammar.tables })
    (fun _ => bottom) (fun grammar => equation grammar.arena)
    (note .passRepeated) (fun passes => note (.passesExhausted passes))

/-- A memoized function from expressions to expressions that it makes.  The provisional result of
a key is a link, and when its evaluation ends the link is bound to the result. -/
def transformation {Key : Type} [BEq Key] [Hashable Key] (table : Tables → Table Key ExprId)
    (modifyTable : (Table Key ExprId → Table Key ExprId) → Tables → Tables)
    (step : (Key → Eval Grammar ExprId) → Key → Eval Grammar ExprId) :
    Recursion Grammar Key ExprId where
  table grammar := table grammar.tables
  modifyTable f grammar := { grammar with tables := modifyTable f grammar.tables }
  bottom _ := reserve
  step
  finish _ link result := do
    let _ ← bindLink link result
    return result
  noteRepeated := note .passRepeated
  noteExhausted passes := note (.passesExhausted passes)

end Grammar

end Residual
