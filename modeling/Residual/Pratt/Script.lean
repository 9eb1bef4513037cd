import Residual.Lexicon.Basic

/-!
# Scripts

What a token does when its turn comes in an operator precedence parser.  A script sees the input
only through the operations of this module; loops over the input are bounded by the number of
lexemes left, so that every script comes to an end.
-/

set_option autoImplicit false

namespace Residual.Pratt

/-- A token with its text. -/
structure Lexeme (Kind : Type) where
  token : Token Kind
  text : String
  deriving DecidableEq, Inhabited

namespace Lexeme

variable {Kind : Type}

def kind (lexeme : Lexeme Kind) : Kind :=
  lexeme.token.kind

def span (lexeme : Lexeme Kind) : Span :=
  lexeme.token.span

/-- A token with its text in the source it was found in. -/
def ofToken (source : String) (token : Token Kind) : Lexeme Kind :=
  ⟨token, (token.span.text? source).getD ""⟩

end Lexeme

/-- Why tokens could not be parsed. -/
inductive Error where
  /-- A token was found at the start of an expression that cannot stand there. -/
  | cannotStart (name : String) (span : Span)
  /-- A token was found after an expression that cannot stand there. -/
  | cannotFollow (name : String) (span : Span)
  | unexpectedToken (expected found : String) (span : Span)
  | unexpectedEnd (expected : String)
  /-- Tokens were left after the expression. -/
  | trailingInput (found : String) (span : Span)
  deriving DecidableEq

def Error.message : Error → String
  | cannotStart name span =>
      "`" ++ name ++ "` can't start an expression, found at " ++ toString span
  | cannotFollow name span =>
      "`" ++ name ++ "` can't follow an expression, found at " ++ toString span
  | unexpectedToken expected found span =>
      "expected `" ++ expected ++ "`, found `" ++ found ++ "` at " ++ toString span
  | unexpectedEnd expected => "unexpected end of input, expected " ++ expected
  | trailingInput found span =>
      "unexpected `" ++ found ++ "` after the end of the expression at " ++ toString span

/-- A computation of an `Answer` on the lexemes that are left, where expressions are parsed to
`Result`s. -/
inductive Script (Kind Result Answer : Type) where
  | done (answer : Answer)
  | fail (error : Error)
  /-- Parses an expression of operators that bind tighter than `power`. -/
  | expression (power : Nat) (next : Result → Script Kind Result Answer)
  /-- Consumes a lexeme, which has to be of some kind. -/
  | expect (kind : Kind) (next : Lexeme Kind → Script Kind Result Answer)
  /-- Consumes a lexeme, if one is left. -/
  | advance (next : Option (Lexeme Kind) → Script Kind Result Answer)
  /-- Looks at the kind of the next lexeme. -/
  | peek (next : Option Kind → Script Kind Result Answer)
  /-- Counts the lexemes that are left. -/
  | remaining (next : Nat → Script Kind Result Answer)
  /-- Parses an expression of operators that bind tighter than `power`, and goes on if that fails. -/
  | tryExpression (power : Nat) (next : Except Error Result → Script Kind Result Answer)
  /-- Consumes a lexeme, and goes on if it is not of some kind. -/
  | tryExpect (kind : Kind) (next : Except Error (Lexeme Kind) → Script Kind Result Answer)

namespace Script

variable {Kind Result Answer Other : Type}

protected def bind (script : Script Kind Result Answer)
    (next : Answer → Script Kind Result Other) : Script Kind Result Other :=
  match script with
  | done answer => next answer
  | fail error => fail error
  | expression power rest => expression power fun result => (rest result).bind next
  | expect kind rest => expect kind fun lexeme => (rest lexeme).bind next
  | advance rest => advance fun lexeme? => (rest lexeme?).bind next
  | peek rest => peek fun kind? => (rest kind?).bind next
  | remaining rest => remaining fun count => (rest count).bind next
  | tryExpression power rest => tryExpression power fun outcome => (rest outcome).bind next
  | tryExpect kind rest => tryExpect kind fun outcome => (rest outcome).bind next

instance : Monad (Script Kind Result) where
  pure := done
  bind := Script.bind

end Script

end Residual.Pratt
