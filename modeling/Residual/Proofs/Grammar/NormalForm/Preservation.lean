import Residual.Proofs.Grammar.NormalForm.Steps
import Residual.Proofs.Memo.Preservation

/-!
# What simplification keeps

The step of a simplification adds expressions and asks for heights, for equalities and for other
simplified forms.  A property of computations that all of these have, and that passes to what is
composed of them, is one of the step, whatever the tables say.  So a relation between grammars that
they keep is kept by the step.
-/

set_option autoImplicit false

namespace Residual.Grammar

open Memo

/-! ## The step in parts -/

/-- What a step makes of an operator whose operands were simplified. -/
def simplifyFrom (id : ExprId) : (e simple : Expr ExprId) → Eval Grammar ExprId
  | .alt left right, .alt l r => simplifyAlt id left right l r
  | .cat first second, .cat l r => simplifyCat id first second l r
  | .not lang, .not simple => do
      match ← shape? simple with
      | some (.not inner) => return (← get).resolve inner
      | _ => rebuild id lang simple (.not simple)
  | .opt lang, .opt simple => do
      match ← shape? simple with
      | some .nil | some .empty => return .empty
      | _ => rebuild id lang simple (.opt simple)
  | .plus lang, .plus simple => do
      match ← shape? simple with
      | some .nil | some .empty => return simple
      | _ => rebuild id lang simple (.plus simple)
  | .star lang, .star simple => do
      match ← shape? simple with
      | some .nil | some .empty => return .empty
      | some (.star _) => return simple
      | _ => rebuild id lang simple (.star simple)
  | .range low high, _ => do if low = high then push (.char low) else return id
  | .rep _ (.finite 1), .rep simple _ => return simple
  | .rep _ .infinite, .rep simple _ => push (.star simple)
  | .rep lang count, .rep simple _ => rebuild id lang simple (.rep simple count)
  | _, _ => return id

/-- Simplifies the operands from left to right, but for those of what is never repeated. -/
def simplifyOperator (recur : ExprId → Eval Grammar ExprId) (id : ExprId) :
    Expr ExprId → Eval Grammar ExprId
  | .rep _ (.finite 0) => return .empty
  | e => do simplifyFrom id e (← e.mapM (askOperand recur))

theorem simplifyOperator_eq {recur : ExprId → Eval Grammar ExprId} {id : ExprId} {e : Expr ExprId}
    (repeated : ∀ lang, e ≠ .rep lang (.finite 0)) :
    simplifyOperator recur id e = e.mapM (askOperand recur) >>= simplifyFrom id e := by
  unfold simplifyOperator
  split
  · exact absurd rfl (repeated _)
  · rfl

theorem simplifyStep_eq (recur : ExprId → Eval Grammar ExprId) (id : ExprId) :
    simplifyStep recur id = (do simplifyOperator recur id ((← get).get id)) := by
  unfold simplifyStep
  refine bind_congr fun state => ?_
  unfold simplifyOperator
  cases state.get id with
  | rep lang count =>
      rcases count with (_ | _ | times) | _
      all_goals simp only [Expr.mapM, bind_assoc, pure_bind, simplifyFrom]
      all_goals first | rfl | exact (bind_pure _).symm
  | alt _ _ | cat _ _ | not _ | opt _ | plus _ | star _ =>
      simp only [Expr.mapM, bind_assoc, pure_bind, simplifyFrom]
      rfl
  | _ => simp only [Expr.mapM, pure_bind, simplifyFrom]

/-- A property of computations that passes to what is composed of them, and that the parts of a
simplification have. -/
structure SimplificationParts (Holds : {Answer : Type} → Eval Grammar Answer → Prop) : Prop where
  pure : ∀ {Answer : Type} (answer : Answer), Holds (pure answer : Eval Grammar Answer)
  bind : ∀ {Answer Result : Type} {computation : Eval Grammar Answer}
    {next : Answer → Eval Grammar Result}, Holds computation → (∀ answer, Holds (next answer)) →
      Holds (computation >>= next)
  look : ∀ {Answer Result : Type} (see : Arena → Answer) {next : Answer → Eval Grammar Result},
    (∀ answer, Holds (next answer)) → Holds (get >>= fun grammar => next (see grammar.arena))
  push : ∀ e, Holds (liftM (push e) : Eval Grammar ExprId)
  height : ∀ id, Holds (computeHeight id)
  equal : ∀ x y, Holds (computeEqual x y)

namespace SimplificationParts

variable {Holds : {Answer : Type} → Eval Grammar Answer → Prop} (parts : SimplificationParts @Holds)

include parts

theorem shape (id : ExprId) : Holds (shape? id) :=
  parts.look (fun arena => arena.get? id) parts.pure

theorem unchanged (operand simplified : ExprId) : Holds (unchanged operand simplified) :=
  parts.look (fun arena => arena.resolve operand == simplified) parts.pure

theorem rebuild (id operand simplified : ExprId) (e : Expr ExprId) :
    Holds (rebuild id operand simplified e) := by
  refine parts.bind (parts.unchanged operand simplified) fun same => ?_
  split
  · exact parts.pure id
  · exact parts.push e

theorem uniteOrdered (id left right l r : ExprId) : Holds (uniteOrdered id left right l r) := by
  refine parts.bind (parts.equal l r) fun isEqual => ?_
  split
  · exact parts.pure l
  · refine parts.bind (parts.shape r) fun shape => ?_
    split
    · exact parts.pure l
    · refine parts.bind (parts.shape l) fun shape => ?_
      split
      · exact parts.pure r
      · refine parts.bind (parts.unchanged left l) fun same => ?_
        refine parts.bind (parts.unchanged right r) fun same' => ?_
        split
        · exact parts.pure id
        · exact parts.push _

theorem unite (id left right l r : ExprId) : Holds (unite id left right l r) :=
  parts.bind (parts.height l) fun _ => parts.bind (parts.height r) fun _ =>
    parts.uniteOrdered id left right _ _

theorem simplifyAlt (id left right l r : ExprId) : Holds (simplifyAlt id left right l r) := by
  rw [simplifyAlt_eq]
  refine parts.bind (parts.shape l) fun shape => ?_
  split
  · rename_i inner rest
    have united : ∀ inner, Holds (do
        let tail ← liftM (Grammar.push (.alt rest r))
        Grammar.unite id left right inner tail : Eval Grammar ExprId) := fun inner =>
      parts.bind (parts.push _) fun tail => parts.unite id left right inner tail
    have looked := parts.look (fun arena => arena.resolve inner) united
    exact looked
  · exact parts.unite id left right l r

theorem simplifyCat (id first second simpleFirst simpleSecond : ExprId) :
    Holds (simplifyCat id first second simpleFirst simpleSecond) := by
  refine parts.bind (parts.shape simpleFirst) fun shape => ?_
  refine parts.bind (parts.shape simpleSecond) fun shape' => ?_
  split
  · exact parts.pure _
  · exact parts.pure _
  · exact parts.pure _
  · exact parts.pure _
  · refine parts.bind (parts.unchanged first simpleFirst) fun same => ?_
    refine parts.bind (parts.unchanged second simpleSecond) fun same' => ?_
    split
    · exact parts.pure id
    · exact parts.push _

theorem mapM {f : ExprId → Eval Grammar ExprId} {e : Expr ExprId}
    (each : ∀ o ∈ e.operands, Holds (f o)) : Holds (e.mapM f) := by
  cases e with
  | alt left right | cat left right =>
      exact parts.bind (each left (by simp [Expr.operands])) fun _ =>
        parts.bind (each right (by simp [Expr.operands])) fun _ => parts.pure _
  | not lang | opt lang | plus lang | star lang | rep lang _ =>
      exact parts.bind (each lang (by simp [Expr.operands])) fun _ => parts.pure _
  | _ => exact parts.pure _

theorem simplifyFrom (id : ExprId) (e simple : Expr ExprId) : Holds (simplifyFrom id e simple) := by
  unfold Grammar.simplifyFrom
  split
  · exact parts.simplifyAlt ..
  · exact parts.simplifyCat ..
  · refine parts.bind (parts.shape _) fun shape => ?_
    split
    · exact parts.look (fun arena => arena.resolve _) parts.pure
    · exact parts.rebuild ..
  · refine parts.bind (parts.shape _) fun shape => ?_
    split
    · exact parts.pure _
    · exact parts.pure _
    · exact parts.rebuild ..
  · refine parts.bind (parts.shape _) fun shape => ?_
    split
    · exact parts.pure _
    · exact parts.pure _
    · exact parts.rebuild ..
  · refine parts.bind (parts.shape _) fun shape => ?_
    split
    · exact parts.pure _
    · exact parts.pure _
    · exact parts.pure _
    · exact parts.rebuild ..
  · split
    · exact parts.push _
    · exact parts.pure id
  · exact parts.pure _
  · exact parts.push _
  · exact parts.rebuild ..
  · exact parts.pure id

/-- The simplified operands decide. -/
theorem simplifyOperator {recur : ExprId → Eval Grammar ExprId} (id : ExprId) {e : Expr ExprId}
    (operand : ∀ o ∈ e.operands, Holds (askOperand recur o)) :
    Holds (simplifyOperator recur id e) := by
  unfold Grammar.simplifyOperator
  split
  · exact parts.pure _
  · exact parts.bind (parts.mapM operand) fun simple => parts.simplifyFrom id _ simple

theorem simplifyStep {recur : ExprId → Eval Grammar ExprId} (recurs : ∀ id, Holds (recur id))
    (id : ExprId) : Holds (simplifyStep recur id) := by
  rw [simplifyStep_eq]
  exact parts.look (fun arena => arena.get id) fun e => parts.simplifyOperator id fun o _ =>
    parts.look (fun arena => arena.resolve o) recurs

end SimplificationParts

/-! ## Relations between grammars -/

/-- The parts of a simplification keep a relation, which can be composed. -/
structure SimplificationKeeps (related : Grammar → Grammar → Prop) : Prop where
  refl : ∀ grammar, related grammar grammar
  trans : ∀ ⦃first second third⦄, related first second → related second third →
    related first third
  push : ∀ e, Keeps related (liftM (push e) : Eval Grammar ExprId)
  height : ∀ id, Keeps related (computeHeight id)
  equal : ∀ x y, Keeps related (computeEqual x y)

namespace SimplificationKeeps

variable {related : Grammar → Grammar → Prop} (keeps : SimplificationKeeps related)

include keeps

theorem parts : SimplificationParts (Keeps related) where
  pure := keeps_pure keeps.refl
  bind := Keeps.bind keeps.trans
  look see _ rest := keeps_get_bind fun grammar => rest (see grammar.arena)
  push := keeps.push
  height := keeps.height
  equal := keeps.equal

/-- The simplified forms of the operands decide what the step keeps. -/
theorem ensures_simplifyStep {recur : ExprId → Eval Grammar ExprId} {id : ExprId} {state : Grammar}
    (operand : ∀ o ∈ (state.get id).operands, Keeps related (askOperand recur o)) :
    Ensures (Grammar.simplifyStep recur id) state fun _ after => related state after := by
  rw [simplifyStep_eq, ensures_bind, ensures_get]
  exact keeps.parts.simplifyOperator id operand state

/-- What is kept for all other simplified forms is kept by the step. -/
theorem simplifyStep {recur : ExprId → Eval Grammar ExprId}
    (recurs : ∀ id, Keeps related (recur id)) (id : ExprId) :
    Keeps related (simplifyStep recur id) :=
  keeps.parts.simplifyStep recurs id

end SimplificationKeeps

end Residual.Grammar
