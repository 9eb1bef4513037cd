import Residual.Grammar.Derivative
import Residual.Proofs.Grammar.Transformation.Scheme
import Residual.Proofs.Memo.Preservation

/-!
# What derivations and deltas keep

The step of a derivation adds expressions, asks for nullability and for other derivatives, and may
take note of a fault.  A relation between grammars that all of these keep is kept by the step.  New
expressions are derived in three places, so that more can be said about these than about operands.
-/

set_option autoImplicit false

namespace Residual.Grammar

open Memo

/-- The parts of a derivation keep a relation, which can be composed. -/
structure DerivationKeeps (related : Grammar → Grammar → Prop) : Prop where
  refl : ∀ grammar, related grammar grammar
  trans : ∀ ⦃first second third⦄, related first second → related second third →
    related first third
  push : ∀ e, Keeps related (liftM (push e) : Eval Grammar ExprId)
  token : ∀ text, Keeps related (liftM (token text) : Eval Grammar ExprId)
  nullable : ∀ id, Keeps related (computeNullable id)
  fail : ∀ error, Keeps related (modify (fail error) : Eval Grammar PUnit)

namespace DerivationKeeps

variable {related : Grammar → Grammar → Prop} (keeps : DerivationKeeps related) {id : ExprId}
  {state : Grammar} {Answer Result : Type}

include keeps

theorem pure (answer : Answer) : Keeps related (pure answer : Eval Grammar Answer) :=
  keeps_pure keeps.refl answer

theorem bind {computation : Eval Grammar Answer} {next : Answer → Eval Grammar Result}
    (first : Keeps related computation) (rest : ∀ answer, Keeps related (next answer)) :
    Keeps related (computation >>= next) :=
  first.bind keeps.trans rest

/-- The derivatives of the operands and of what is made for options, ranges and literals decide what
the step keeps. -/
theorem ensures_derivativeStep {recur : Derivation → Eval Grammar ExprId} {c : Char}
    (empty : Keeps related (askOperand (fun id => recur ⟨id, c⟩) .empty))
    (nil : Keeps related (askOperand (fun id => recur ⟨id, c⟩) .nil))
    (operand : ∀ o ∈ (state.get id).operands, Keeps related (askOperand (fun id => recur ⟨id, c⟩) o))
    (option : ∀ lang, state.get id = .opt lang → Ensures (do
        askOperand (fun id => recur ⟨id, c⟩) (← liftM (Grammar.push (.alt lang .empty)))) state
      fun _ after => related state after)
    (range : ∀ low high, state.get id = .range low high → Ensures (do
        askOperand (fun id => recur ⟨id, c⟩) (← liftM (char c))) state
      fun _ after => related state after)
    (literal : ∀ text first, state.get id = .token text → Ensures (do
        askOperand (fun id => recur ⟨id, c⟩) (← liftM (char first))) state
      fun _ after => related state after) :
    Ensures (derivativeStep recur ⟨id, c⟩) state fun _ after => related state after := by
  refine (ensures_bind _ _ _).mpr ((ensures_get _).mpr ?_)
  dsimp only
  generalize isExpr : state.get id = e at operand option range literal
  cases e with
  | any | empty | nil => exact keeps.pure _ state
  | char c' => exact keeps.pure _ state
  | range low high =>
      dsimp only
      split
      · exact range low high rfl
      · exact nil state
  | token text =>
      dsimp only
      split
      · exact empty state
      · rename_i first rest _
        have onward (head : ExprId) : Keeps related (if rest.isEmpty then Pure.pure head else do
            let tail ← liftM (Grammar.token (String.ofList rest))
            liftM (Grammar.push (.cat head tail)) : Eval Grammar ExprId) := by
          split
          · exact keeps.pure head
          · exact keeps.bind (keeps.token _) fun tail => keeps.push _
        refine (ensures_bind _ _ _).mpr (((ensures_bind _ _ _).mp (literal text first rfl)).mono ?_)
        intro one between made
        refine (ensures_bind _ _ _).mpr (made.mono fun head between' begun => ?_)
        exact (onward head between').mono fun _ _ ended => keeps.trans begun ended
  | alt left right =>
      exact keeps.bind (operand left (by simp [Expr.operands])) (fun l =>
        keeps.bind (operand right (by simp [Expr.operands])) fun r => keeps.push _) state
  | cat first second =>
      refine keeps.bind (operand first (by simp [Expr.operands])) (fun head =>
        keeps.bind (keeps.push _) fun cat => keeps.bind (keeps.nullable first) fun nullable => ?_) state
      cases nullable with
      | true =>
          exact keeps.bind (operand second (by simp [Expr.operands])) fun tail => keeps.push _
      | false => exact keeps.pure cat
  | not lang | star lang =>
      exact keeps.bind (operand lang (by simp [Expr.operands])) (fun rest => keeps.push _) state
  | opt lang => exact option lang rfl
  | plus lang =>
      exact keeps.bind (operand lang (by simp [Expr.operands])) (fun head =>
        keeps.bind (keeps.push _) fun star => keeps.push _) state
  | rep lang count =>
      have asked := operand lang (by simp [Expr.operands])
      rcases count with (_ | _ | times) | _
      case finite.zero => exact keeps.pure _ state
      case finite.succ.zero => exact asked state
      case finite.succ.succ =>
        exact keeps.bind asked (fun head => keeps.bind (keeps.push _) fun rest => keeps.push _) state
      case infinite => exact keeps.bind (keeps.fail _) (fun _ => keeps.pure _) state

/-- The deltas of the operands decide what the step keeps. -/
theorem ensures_deltaStep {recur : ExprId → Eval Grammar ExprId}
    (operand : ∀ o ∈ (state.get id).operands, Keeps related (askOperand recur o)) :
    Ensures (deltaStep recur id) state fun _ after => related state after := by
  refine (ensures_bind _ _ _).mpr ((ensures_get _).mpr ?_)
  generalize state.get id = e at operand
  cases e with
  | alt left right | cat left right =>
      exact keeps.bind (operand left (by simp [Expr.operands])) (fun l =>
        keeps.bind (operand right (by simp [Expr.operands])) fun r => keeps.push _) state
  | not lang =>
      exact keeps.bind (operand lang (by simp [Expr.operands])) (fun delta =>
        keeps.bind (keeps.nullable delta) fun nullable => keeps.pure _) state
  | plus lang => exact operand lang (by simp [Expr.operands]) state
  | rep lang count =>
      rcases count with (_ | times) | _
      case finite.zero => exact keeps.pure _ state
      case finite.succ => exact operand lang (by simp [Expr.operands]) state
      case infinite => exact keeps.pure _ state
  | any | char _ | empty | nil | opt _ | range _ _ | star _ | token _ => exact keeps.pure _ state

/-- What is kept for all other derivatives is kept by the step. -/
theorem derivativeStep {recur : Derivation → Eval Grammar ExprId}
    (recurs : ∀ key, Keeps related (recur key)) (key : Derivation) :
    Keeps related (derivativeStep recur key) := by
  have asked (o : ExprId) : Keeps related (askOperand (fun id => recur ⟨id, key.c⟩) o) :=
    keeps_get_bind fun _ => recurs _
  exact fun state => keeps.ensures_derivativeStep (asked .empty) (asked .nil) (fun o _ => asked o)
    (fun _ _ => keeps.bind (keeps.push _) asked state)
    (fun _ _ _ => keeps.bind (keeps.push _) asked state)
    fun _ _ _ => keeps.bind (keeps.push _) asked state

/-- What is kept for all other deltas is kept by the step. -/
theorem deltaStep {recur : ExprId → Eval Grammar ExprId} (recurs : ∀ id, Keeps related (recur id))
    (id : ExprId) : Keeps related (deltaStep recur id) :=
  fun _ => keeps.ensures_deltaStep fun _ _ => keeps_get_bind fun _ => recurs _

end DerivationKeeps

end Residual.Grammar
