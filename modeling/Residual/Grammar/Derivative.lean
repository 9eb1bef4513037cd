import Residual.Grammar.Analysis
import Residual.Grammar.Construction

/-!
# Derivatives

The derivative of a language with respect to a character is what may follow that character in its
strings; the delta of a language keeps its empty string and nothing else.  Both are expressions
again.

While a derivative is in progress a link stands for it.  A derivative that depends on itself, as
on left recursive rules, refers to itself through that link.
-/

set_option autoImplicit false

namespace Residual

namespace Grammar

open Memo

/-- Takes note of a fault, unless there is one already. -/
def fail (error : Error) (grammar : Grammar) : Grammar :=
  { grammar with fault := grammar.fault <|> some error }

/-- The derivative of a resolved expression, given the derivatives of others:
`∂(L|M) = ∂L|∂M`, `∂(LM) = ∂L M`, or `∂L M|∂M` if `L` contains the empty string, `∂¬L = ¬∂L`,
`∂L* = ∂L L*`, and so on. -/
def derivativeStep (recur : Derivation → Eval Grammar ExprId) :
    Derivation → Eval Grammar ExprId
  | ⟨id, c⟩ => do
      let derive (operand : ExprId) : Eval Grammar ExprId := do
        recur ⟨(← get).resolve operand, c⟩
      match (← get).get id with
      | .any => return .empty
      | .empty | .nil => return .nil
      | .char c' => return if c' = c then .empty else .nil
      | .range low high =>
          if low ≤ c ∧ c ≤ high then
            derive (← char c)
          else
            derive .nil
      | .token text =>
          match text.toList with
          | [] => derive .empty
          | first :: rest =>
              let head ← derive (← char first)
              if rest.isEmpty then
                return head
              else
                let tail ← token (String.ofList rest)
                push (.cat head tail)
      | .alt left right =>
          let left ← derive left
          let right ← derive right
          push (.alt left right)
      | .cat first second =>
          let head ← derive first
          let cat ← push (.cat head second)
          if ← computeNullable first then
            let tail ← derive second
            push (.alt cat tail)
          else
            return cat
      | .not lang => push (.not (← derive lang))
      | .opt lang => derive (← push (.alt lang .empty))
      | .plus lang =>
          let head ← derive lang
          let star ← push (.star lang)
          push (.cat head star)
      | .star lang =>
          let head ← derive lang
          push (.cat head id)
      | .rep _ (.finite 0) => return .empty
      | .rep lang (.finite 1) => derive lang
      | .rep lang (.finite (times + 2)) =>
          let head ← derive lang
          let rest ← push (.rep lang (.finite (times + 1)))
          push (.cat head rest)
      | .rep _ .infinite =>
          modify (fail .unboundedRepetition)
          return .nil

/-- The derivatives, by expression and character. -/
def derivatives : Recursion Grammar Derivation ExprId :=
  transformation Tables.derivatives
    (fun f tables => { tables with derivatives := f tables.derivatives }) derivativeStep

/-- A derivative is nested in another one only for expressions of the arena and for one new
expression each for optional expressions, ranges and tokens. -/
def computeDerivative (id : ExprId) (c : Char) : Eval Grammar ExprId := do
  let arena := (← get).arena
  derivatives.solve (2 * arena.size + 1) ⟨arena.resolve id, c⟩

/-- The delta of a resolved expression, given the deltas of others. -/
def deltaStep (recur : ExprId → Eval Grammar ExprId) (id : ExprId) : Eval Grammar ExprId := do
  let delta (operand : ExprId) : Eval Grammar ExprId := do
    recur ((← get).resolve operand)
  match (← get).get id with
  | .alt left right =>
      let left ← delta left
      let right ← delta right
      push (.alt left right)
  | .cat first second =>
      let first ← delta first
      let second ← delta second
      push (.cat first second)
  | .not lang =>
      let lang ← delta lang
      return if ← computeNullable lang then .nil else .empty
  | .plus lang => delta lang
  | .rep _ (.finite 0) | .rep _ .infinite => return .empty
  | .rep lang _ => delta lang
  | .empty | .opt _ | .star _ => return .empty
  | .any | .char _ | .nil | .range .. | .token _ => return .nil

/-- The deltas, by expression. -/
def deltas : Recursion Grammar ExprId ExprId where
  table grammar := grammar.tables.deltas
  modifyTable f grammar := { grammar with tables.deltas := f grammar.tables.deltas }
  bottom _ := return .nil
  step := deltaStep
  noteRepeated := note .passRepeated
  noteExhausted passes := note (.passesExhausted passes)

def computeDelta (id : ExprId) : Eval Grammar ExprId := do
  let arena := (← get).arena
  deltas.solve (arena.size + 1) (arena.resolve id)

/-- An expression with the structure of `id` for its empty string alone: `a|b*` becomes `∅|ε`. -/
def delta (id : ExprId) : StateM Grammar ExprId :=
  (computeDelta id).settle .nil

end Grammar

end Residual
