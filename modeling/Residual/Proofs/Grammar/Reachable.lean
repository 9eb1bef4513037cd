import Residual.Proofs.Grammar.Delta.Evaluation
import Residual.Proofs.Grammar.Membership

/-!
# Reachable grammars

A grammar changes only by the calls of its operations, with expressions that it has.  Every call
keeps it coherent, whatever came before, and makes its arena grow.
-/

set_option autoImplicit false

namespace Residual

open Memo

/-- A call of an operation of a grammar. -/
inductive Call where
  | operand (operand : Operand)
  | token (text : String)
  | range (low high : Char)
  | alt (left right : Operand)
  | cat (first second : Operand)
  | not (lang : Operand)
  | opt (lang : Operand)
  | plus (lang : Operand)
  | star (lang : Operand)
  | rep (lang : Operand) (count : Count)
  | choice (langs : List Operand)
  | seq (langs : List Operand)
  | declare
  | define (link : ExprId) (lang : Operand)
  /-- The end of a recursive rule, which began with `declare`. -/
  | tie (link target : ExprId)
  | clearTables
  | nullable (id : ExprId)
  | equal (x y : ExprId)
  | height (id : ExprId)
  | render (id : ExprId)
  | simplify (id : ExprId)
  | canonicalize (id : ExprId)
  | delta (id : ExprId)
  | derivative (id : ExprId) (c : Char)
  | derivativeOfText (id : ExprId) (text : String)
  | accepts (lang : Operand) (text : String)
  /-- Another journal is used from now on. -/
  | record (journal : Journal)

namespace Call

/-- The expressions that a call is given. -/
def ids : Call → List ExprId
  | operand lang | not lang | opt lang | plus lang | star lang | rep lang _ | accepts lang _ =>
      lang.ids
  | alt left right | cat left right => left.ids ++ right.ids
  | choice langs | seq langs => langs.flatMap Operand.ids
  | define link lang => link :: lang.ids
  | tie x y | equal x y => [x, y]
  | nullable id | height id | render id | simplify id | canonicalize id | delta id
  | derivative id _ | derivativeOfText id _ => [id]
  | token _ | range .. | declare | clearTables | record _ => []

/-- What a call does to a grammar. -/
def run : Call → StateM Grammar Unit
  | operand lang => discard (Grammar.operand lang)
  | token text => discard (Grammar.token text)
  | range low high => discard (Grammar.range low high)
  | alt left right => discard (Grammar.alt left right)
  | cat first second => discard (Grammar.cat first second)
  | not lang => discard (Grammar.not lang)
  | opt lang => discard (Grammar.opt lang)
  | plus lang => discard (Grammar.plus lang)
  | star lang => discard (Grammar.star lang)
  | rep lang count => discard (Grammar.rep lang count)
  | choice langs => discard (Grammar.choice langs)
  | seq langs => discard (Grammar.seq langs)
  | declare => discard Grammar.declare
  | define link lang => discard (Grammar.define link lang)
  | tie link target => Grammar.tie link target
  | clearTables => modify Grammar.clearTables
  | nullable id => discard (Grammar.nullable id)
  | equal x y => discard (Grammar.equal x y)
  | height id => discard (Grammar.height id)
  | render id => discard (Grammar.render id)
  | simplify id => discard (Grammar.simplify id)
  | canonicalize id => discard (Grammar.canonicalize id)
  | delta id => discard (Grammar.delta id)
  | derivative id c => discard (Grammar.derivative id c)
  | derivativeOfText id text => discard (Grammar.derivativeOfText id text)
  | accepts lang text => discard (Grammar.accepts lang text)
  | record journal => modify fun grammar => { grammar with journal }

/-- The call may define a reference. -/
def defines : Call → Bool
  | define .. | tie .. => true
  | _ => false

end Call

namespace Grammar

/-- The later grammar comes from the earlier one by calls, each with expressions that it had. -/
inductive Evolves (before : Grammar) : Grammar → Prop where
  | refl : Evolves before before
  | call {grammar : Grammar} (call : Call) : Evolves before grammar →
      (∀ id ∈ call.ids, id.number < grammar.arena.size) → Evolves before (call.run grammar).2

/-- The grammar comes from a new one by calls. -/
def Reachable (grammar : Grammar) : Prop :=
  ∃ config, Evolves (ofConfig config) grammar

variable {before after grammar : Grammar}

namespace Coherent

variable (coherent : grammar.Coherent)

include coherent

theorem gives_range (low high : Char) :
    Gives (Grammar.range low high) grammar fun _ after => grammar.Advances after := by
  unfold Grammar.range
  split
  · exact coherent.advances_refl
  · exact (coherent.makes_push (e := .range low high) (by simp [Expr.operands])).mono
      fun _ _ makes => makes.1

theorem gives_accepts (lang : Operand) (text : String)
    (inside : ∀ id ∈ lang.ids, id.number < grammar.arena.size) :
    Gives (Grammar.accepts lang text) grammar fun _ after => grammar.Advances after := by
  refine (gives_bind _ _ _).mpr ((coherent.makes_operand lang inside).mono ?_)
  rintro id between ⟨advances, inside⟩
  exact (advances.coherent.accepts inside text).mono fun _ _ decided => advances.trans decided.1

/-- Constructors and questions only advance a grammar. -/
theorem advances_run (call : Call) (inside : ∀ id ∈ call.ids, id.number < grammar.arena.size)
    (defines : call.defines = false) (declares : call ≠ .declare) (keeps : call ≠ .clearTables) :
    grammar.Advances (call.run grammar).2 := by
  have given : ∀ {id}, call.ids = [id] → id.number < grammar.arena.size := fun same =>
    inside _ (by simp [same])
  have unary : ∀ {e : ExprId → Expr ExprId} (lang : Operand), call.ids = lang.ids →
      (∀ o, (e o).operands = [o]) →
      grammar.Makes (do Grammar.push (e (← Grammar.operand lang))) := fun lang same operands =>
    coherent.makes_unary operands lang (same ▸ inside)
  cases call with
  | operand lang => exact (coherent.makes_operand lang inside).1
  | token text => exact (coherent.makes_token text).1
  | range low high => exact coherent.gives_range low high
  | alt left right => exact (coherent.makes_binary (e := .alt) (fun _ _ => rfl) left right inside).1
  | cat first second => exact (coherent.makes_binary (e := .cat) (fun _ _ => rfl) first second inside).1
  | not lang => exact (unary (e := .not) lang rfl fun _ => rfl).1
  | opt lang => exact (unary (e := .opt) lang rfl fun _ => rfl).1
  | plus lang => exact (unary (e := .plus) lang rfl fun _ => rfl).1
  | star lang => exact (unary (e := .star) lang rfl fun _ => rfl).1
  | rep lang count => exact (unary (e := (.rep · count)) lang rfl fun _ => rfl).1
  | choice langs => exact (coherent.makes_choice langs inside).1
  | seq langs => exact (coherent.makes_seq langs inside).1
  | declare => exact absurd rfl declares
  | define _ _ | tie _ _ => cases defines
  | clearTables => exact absurd rfl keeps
  | nullable id => exact ((coherent.yields_nullable (given rfl)).settle false).1
  | equal x y =>
      exact (coherent.equal (inside x (by simp [Call.ids])) (inside y (by simp [Call.ids]))).1
  | height id => exact coherent.height (given rfl)
  | render id => exact coherent.render (given rfl)
  | simplify id => exact (coherent.simplify (given rfl)).1.advances
  | canonicalize id => exact (coherent.canonicalize (given rfl)).1.advances
  | delta id => exact (coherent.reduces (given rfl)).advances
  | derivative id c => exact (coherent.derivative (given rfl)).1
  | derivativeOfText id text => exact coherent.derivativeOfText (given rfl) text
  | accepts lang text => exact coherent.gives_accepts lang text inside
  | record journal => exact coherent.advances_journal journal

/-- Every call keeps a grammar coherent and makes its arena grow. -/
theorem grows_run (call : Call) (inside : ∀ id ∈ call.ids, id.number < grammar.arena.size) :
    grammar.Grows (call.run grammar).2 := by
  cases call with
  | define link lang =>
      exact coherent.define lang fun id member => inside id (by simp [Call.ids, member])
  | tie link target => exact coherent.tie (inside target (by simp [Call.ids]))
  | declare => exact coherent.declare
  | clearTables => exact coherent.clearTables
  | _ => exact (coherent.advances_run _ inside rfl (by simp) (by simp)).grows

/-- Only definitions change slots that were there. -/
theorem extends_run (call : Call) (inside : ∀ id ∈ call.ids, id.number < grammar.arena.size)
    (defines : call.defines = false) : grammar.arena.Extends (call.run grammar).2.arena := by
  cases call with
  | define _ _ | tie _ _ => cases defines
  | declare => exact Arena.extends_reserve grammar.arena
  | clearTables => exact .refl grammar.arena
  | _ => exact (coherent.advances_run _ inside rfl (by simp) (by simp)).extending

end Coherent

/-- What calls make of a coherent grammar is coherent. -/
theorem Coherent.evolves (coherent : before.Coherent) (evolves : before.Evolves after) :
    before.Grows after := by
  induction evolves with
  | refl => exact coherent.grows_refl
  | call call _ inside inductionHypothesis =>
      exact inductionHypothesis.trans (inductionHypothesis.coherent.grows_run call inside)

theorem Evolves.trans {first second third : Grammar} (earlier : first.Evolves second)
    (later : second.Evolves third) : first.Evolves third := by
  induction later with
  | refl => exact earlier
  | call call _ inside inductionHypothesis => exact .call call inductionHypothesis inside

theorem Reachable.evolve (reachable : before.Reachable) (evolves : before.Evolves after) :
    after.Reachable := by
  obtain ⟨config, begun⟩ := reachable
  exact ⟨config, begun.trans evolves⟩

theorem Reachable.coherent (reachable : grammar.Reachable) : grammar.Coherent := by
  obtain ⟨config, evolves⟩ := reachable
  exact ((Coherent.ofConfig config).evolves evolves).coherent

end Grammar

end Residual
