import Residual.Pratt.Expression

/-!
# Parsers

A parser holds its symbols and the lexemes that it has not consumed yet.  A failed operation keeps
the place where it failed.
-/

set_option autoImplicit false

namespace Residual.Pratt

/-- Symbols and an input. -/
structure Parser (Kind Result : Type) [BEq Kind] [Hashable Kind] where
  symbols : Symbols Kind Result := ∅
  input : Input Kind

namespace Parser

variable {Kind Result Answer : Type} [BEq Kind] [Hashable Kind] [ToString Kind]

/-- A parser without symbols for the tokens of a source. -/
def ofTokens (source : String) (tokens : List (Token Kind)) : Parser Kind Result where
  input := { rest := tokens.map (Lexeme.ofToken source) }

private def updateSymbol (kind : Kind) (change : Symbol Kind Result → Symbol Kind Result) :
    StateM (Parser Kind Result) Unit :=
  modify fun parser => { parser with symbols := parser.symbols.update kind change }

/-- Sets the name and the power of a kind. -/
def symbol (kind : Kind) (name : String) (power : Nat) : StateM (Parser Kind Result) Unit :=
  updateSymbol kind fun symbol => { symbol with name, power }

/-- Sets what a kind does at the start of an expression. -/
def start (kind : Kind) (script : Lexeme Kind → Script Kind Result Result) :
    StateM (Parser Kind Result) Unit :=
  updateSymbol kind fun symbol => { symbol with start? := some script }

/-- Sets what a kind does after an expression. -/
def follow (kind : Kind) (script : Lexeme Kind → Result → Script Kind Result Result) :
    StateM (Parser Kind Result) Unit :=
  updateSymbol kind fun symbol => { symbol with follow? := some script }

private def onInput (computation : Symbols Kind Result → Parse Kind Answer) :
    StateM (Parser Kind Result) (Except Error Answer) :=
  fun { symbols, input } =>
    match computation symbols input with
    | .ok answer input => (.ok answer, { symbols, input })
    | .error error input => (.error error, { symbols, input })

/-- Parses the whole input as one expression. -/
def parse : StateM (Parser Kind Result) (Except Error Result) :=
  onInput Parse.whole

theorem parse_fst (parser : Parser Kind Result) :
    (parse parser).1 =
      match Parse.whole parser.symbols parser.input with
      | .ok result _ => .ok result
      | .error error _ => .error error := by
  unfold parse onInput
  cases parsed : Parse.whole parser.symbols parser.input with
  | ok _ _ => simp only [parsed]
  | error _ _ => simp only [parsed]

/-- Parses an expression of operators that bind tighter than `power`. -/
def expression (power : Nat) : StateM (Parser Kind Result) (Except Error Result) :=
  onInput fun symbols => do Parse.expression symbols (← get).rest.length power

section Outcomes

variable {symbols : Symbols Kind Result} {input after : Input Kind} {power : Nat} {result : Result}
  {error : Error}

theorem parse_of_ok (parsed : Parse.whole symbols input = .ok result after) :
    parse { symbols, input } = (.ok result, { symbols, input := after }) := by
  simp only [parse, onInput, parsed]

theorem parse_of_error (failed : Parse.whole symbols input = .error error after) :
    parse { symbols, input } = (.error error, { symbols, input := after }) := by
  simp only [parse, onInput, failed]

theorem expression_of_ok
    (parsed : Parse.expression symbols input.rest.length power input = .ok result after) :
    expression power { symbols, input } = (.ok result, { symbols, input := after }) := by
  have answered : (do Parse.expression symbols (← get).rest.length power) input =
      .ok result after := parsed
  simp only [expression, onInput, answered]

theorem expression_of_error
    (failed : Parse.expression symbols input.rest.length power input = .error error after) :
    expression power { symbols, input } = (.error error, { symbols, input := after }) := by
  have answered : (do Parse.expression symbols (← get).rest.length power) input =
      .error error after := failed
  simp only [expression, onInput, answered]

end Outcomes

/-- Consumes the next lexeme, which has to be of some kind. -/
def expect (kind : Kind) : StateM (Parser Kind Result) (Except Error (Lexeme Kind)) :=
  onInput fun symbols => Parse.expect symbols kind

/-- Consumes the next lexeme, if one is left. -/
def advance : StateM (Parser Kind Result) (Except Error (Option (Lexeme Kind))) :=
  onInput fun _ => Parse.advance

/-- The kind of the next lexeme. -/
def peek : StateM (Parser Kind Result) (Except Error (Option Kind)) :=
  onInput fun _ => Parse.peek

end Parser

end Residual.Pratt
