import Residual.Pratt.Tree

/-!
# Roles

The usual things that lexemes do in an expression, as scripts that build trees.
-/

set_option autoImplicit false

namespace Residual.Pratt

variable {Kind : Type}

/-- What a lexeme does at the start of an expression. -/
inductive StartRole (Kind : Type) where
  /-- It is an expression. -/
  | atom
  /-- It is an operator; its operand consists of operators that bind tighter than `power`. -/
  | operator (power : Nat)
  /-- It opens a parenthesis. -/
  | group (close : Kind)
  /-- It opens a list. -/
  | list (separator close : Kind)
  /-- It is followed by a lexeme of some kind. -/
  | label (kind : Kind)
  deriving DecidableEq

/-- What a lexeme does after an expression. -/
inductive FollowRole (Kind : Type) where
  /-- It is a binary operator; its right operand consists of operators that bind tighter than
  `power`. -/
  | binary (power : Nat)
  /-- It is an operator without a right operand. -/
  | postfixed
  /-- It opens a bracket. -/
  | index (close : Kind)
  /-- It is followed by two operands with a lexeme of kind `middle` between them. -/
  | ternary (middle : Kind) (power : Nat)
  /-- It opens a list of arguments. -/
  | call (separator close : Kind)
  /-- It takes all lexemes after it. -/
  | verbatim
  deriving DecidableEq

namespace Script

variable {Result : Type}

/-- An expression of operators that bind tighter than `power`. -/
def parse (power : Nat) : Script Kind Result Result :=
  expression power done

/-- The next lexeme, which has to be of some kind. -/
def take (kind : Kind) : Script Kind Result (Lexeme Kind) :=
  expect kind done

/-- Skips the next lexeme if it is of some kind, and tells whether it was. -/
def skip [BEq Kind] (kind : Kind) : Script Kind Result Bool :=
  peek fun next =>
    if next == some kind then advance fun _ => done true else done false

/-- Expressions with separators between them and a closing lexeme at the end.  Each one consumes a
lexeme, so that after `limit` of them none is left for another. -/
def items [BEq Kind] (separator close : Kind) : (limit : Nat) → Script Kind Result (List Result)
  | 0 => do return [← parse 0]
  | limit + 1 => do
      let item ← parse 0
      if ← skip separator then
        return item :: (← items separator close limit)
      else
        let _ ← take close
        return [item]

/-- Any number of expressions with separators between them and a closing lexeme at the end. -/
def enclosed [BEq Kind] (separator close : Kind) : Script Kind Result (List Result) := do
  if ← skip close then
    return []
  else
    remaining fun limit => items separator close limit

/-- The next lexemes, up to `limit` of them. -/
def takeUpTo : (limit : Nat) → Script Kind Result (List (Lexeme Kind))
  | 0 => return []
  | limit + 1 => advance fun
      | none => return []
      | some lexeme => return lexeme :: (← takeUpTo limit)

end Script

open Script

/-- The script of a role at the start of an expression. -/
def StartRole.script [BEq Kind] (role : StartRole Kind) (lexeme : Lexeme Kind) :
    Script Kind (Tree Kind) (Tree Kind) :=
  match role with
  | atom => return .atom lexeme
  | operator power => return .before lexeme (← parse power)
  | group close => do
      let inner ← parse 0
      return .group lexeme (← take close) inner
  | list separator close => return .list lexeme (← enclosed separator close)
  | label kind => return .label lexeme (← take kind)

/-- The script of a role after an expression. -/
def FollowRole.script [BEq Kind] (role : FollowRole Kind) (lexeme : Lexeme Kind)
    (left : Tree Kind) : Script Kind (Tree Kind) (Tree Kind) :=
  match role with
  | binary power => return .binary lexeme left (← parse power)
  | postfixed => return .after lexeme left
  | index close => do
      let inner ← parse 0
      let _ ← take close
      return .index lexeme left inner
  | ternary middle power => do
      let chosen ← parse 0
      let _ ← take middle
      return .ternary lexeme left chosen (← parse power)
  | call separator close => return .call lexeme left (← enclosed separator close)
  | verbatim => remaining fun limit => return .verbatim lexeme left (← takeUpTo limit)

end Residual.Pratt
