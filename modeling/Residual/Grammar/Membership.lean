import Residual.Arena.Search
import Residual.Grammar.Derivative
import Residual.Grammar.NormalForm
import Residual.Grammar.Rendering

/-!
# Membership

A text belongs to a language if the language that is left after deriving it by the characters of
the text contains the empty string.  Questions of this kind are answered only for expressions
whose references are all defined.
-/

set_option autoImplicit false

namespace Residual

namespace Grammar

/-- The reference that keeps an expression from being derived: an unbound link below it. -/
def undefined? (grammar : Grammar) (id : ExprId) : Option ExprId :=
  if grammar.arena.unbound == 0 then none else grammar.arena.firstUnbound? id

/-- The derivative of an expression without unbound links.  After a fault the derivatives made so
far are forgotten, for they may rest on it. -/
def deriveDefined (id : ExprId) (c : Char) : StateM Grammar (Except Error ExprId) := do
  let result ← (computeDerivative id c).settle .nil
  match (← get).fault with
  | some error =>
      modify fun grammar =>
        { grammar with
          fault := none
          tables.derivatives := .empty grammar.tables.derivatives.strategy }
      return .error error
  | none => return .ok result

/-- The language of the strings that `c` can be followed by in the strings of an expression. -/
def derivative (id : ExprId) (c : Char) : StateM Grammar (Except Error ExprId) := do
  match (← get).undefined? id with
  | some link => return .error (.undefinedReference link)
  | none => deriveDefined id c

/-- The derivative with respect to a text, which has to be a single character. -/
def derivativeOfText (id : ExprId) (text : String) : StateM Grammar (Except Error ExprId) := do
  match text.toList with
  | [c] => derivative id c
  | _ => return .error (.notSingleChar text)

/-- What an expression leaves of a text. -/
inductive Consumption where
  /-- The language of the texts that may follow. -/
  | residual (id : ExprId)
  /-- Nothing can follow from this offset on. -/
  | rejected (offset : Nat)

/-- Derives an expression by the characters of a text, the first one being at `offset`. -/
def consume (id : ExprId) (offset : Nat) :
    (rest : List Char) → StateM Grammar (Except Error Consumption)
  | [] => return .ok (.residual id)
  | c :: rest => do
      if (← get).get id = .nil then
        return .ok (.rejected offset)
      match ← deriveDefined id c with
      | .error error => return .error error
      | .ok next =>
          let next ← if (← get).config.simplify.eachStep then canonicalize next else pure next
          if (← get).journal.recording then
            let rendering ← render next
            modify (note (.residual c offset rendering))
          consume next (offset + c.utf8Size) rest

/-- Whether a text belongs to the language of an expression. -/
def accepts (lang : Operand) (text : String) : StateM Grammar (Except Error Bool) := do
  let id ← operand lang
  match (← get).undefined? id with
  | some link => return .error (.undefinedReference link)
  | none =>
      let start ← canonicalize id
      match ← consume start 0 text.toList with
      | .error error => return .error error
      | .ok (.rejected offset) =>
          modify (note (.rejected id text offset))
          return .ok false
      | .ok (.residual last) =>
          let last ← if (← get).config.simplify.eachStep then pure last else canonicalize last
          let accepted ← nullable last
          modify (note (.decided id text accepted))
          return .ok accepted

end Grammar

end Residual
