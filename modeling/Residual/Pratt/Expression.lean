import Std.Data.HashMap
import Residual.Pratt.Script

/-!
# Operator precedence parsing

A symbol says what the lexemes of one kind do: at the start of an expression, after an expression,
and how strongly they bind what is before them.  `expression` runs the script of the first lexeme
and then extends its result while the next lexeme binds tighter than the given power.
-/

set_option autoImplicit false

namespace Residual.Pratt

/-- What the lexemes of one kind mean to a parser. -/
structure Symbol (Kind Result : Type) where
  /-- The name of the kind in messages. -/
  name : String
  /-- How strongly a lexeme binds the expression before it. -/
  power : Nat := 0
  /-- What a lexeme does at the start of an expression. -/
  start? : Option (Lexeme Kind → Script Kind Result Result) := none
  /-- What a lexeme does after an expression. -/
  follow? : Option (Lexeme Kind → Result → Script Kind Result Result) := none

/-- The symbols of a parser. -/
abbrev Symbols (Kind Result : Type) [BEq Kind] [Hashable Kind] :=
  Std.HashMap Kind (Symbol Kind Result)

namespace Symbols

variable {Kind Result : Type} [BEq Kind] [Hashable Kind] [ToString Kind]

/-- The name of a kind in messages, which is the kind itself if it has no symbol. -/
def name (symbols : Symbols Kind Result) (kind : Kind) : String :=
  match symbols[kind]? with
  | some symbol => symbol.name
  | none => toString kind

/-- A kind without a symbol ends every expression. -/
def power (symbols : Symbols Kind Result) (kind : Kind) : Nat :=
  (symbols[kind]?).elim 0 Symbol.power

/-- Changes the symbol of a kind, which is made if there is none. -/
def update (kind : Kind) (change : Symbol Kind Result → Symbol Kind Result)
    (symbols : Symbols Kind Result) : Symbols Kind Result :=
  let symbol := symbols.getD kind { name := toString kind }
  symbols.insert kind (change symbol)

end Symbols

/-- The lexemes that are left, and what there was to report so far. -/
structure Input (Kind : Type) where
  rest : List (Lexeme Kind)
  journal : Journal := {}

/-- A computation that consumes lexemes and may fail. -/
abbrev Parse (Kind : Type) : Type → Type := EStateM Error (Input Kind)

namespace Parse

variable {Kind Result Answer : Type}

/-- Consumes the next lexeme, if one is left. -/
def advance : Parse Kind (Option (Lexeme Kind)) :=
  modifyGet fun input =>
    match input.rest with
    | [] => (none, input)
    | lexeme :: rest => (some lexeme, { input with rest })

/-- The kind of the next lexeme. -/
def peek : Parse Kind (Option Kind) :=
  return (← get).rest.head?.map Lexeme.kind

def note (event : Event) : Parse Kind Unit :=
  modify fun input => { input with journal := input.journal.note event }

/-- What a computation comes to, also if it fails.  What it consumed stays consumed. -/
def attempt (computation : Parse Kind Answer) : Parse Kind (Except Error Answer) := fun input =>
  match computation input with
  | .ok answer after => .ok (.ok answer) after
  | .error error after => .ok (.error error) after

variable [BEq Kind] [Hashable Kind] [ToString Kind]

/-- Consumes the next lexeme, which has to be of some kind.  It is consumed also if it is not. -/
def expect (symbols : Symbols Kind Result) (kind : Kind) : Parse Kind (Lexeme Kind) := do
  match ← advance with
  | none => throw (.unexpectedEnd (symbols.name kind))
  | some lexeme =>
      if lexeme.kind == kind then
        return lexeme
      else
        throw (.unexpectedToken (symbols.name kind) (symbols.name lexeme.kind) lexeme.span)

/-- Runs a script, given how expressions are parsed. -/
def run (symbols : Symbols Kind Result) (expression : (power : Nat) → Parse Kind Result) :
    Script Kind Result Answer → Parse Kind Answer
  | .done answer => return answer
  | .fail error => throw error
  | .expression power next => do run symbols expression (next (← expression power))
  | .expect kind next => do run symbols expression (next (← expect symbols kind))
  | .advance next => do run symbols expression (next (← advance))
  | .peek next => do run symbols expression (next (← peek))
  | .remaining next => do run symbols expression (next (← get).rest.length)
  | .tryExpression power next => do run symbols expression (next (← attempt (expression power)))
  | .tryExpect kind next => do run symbols expression (next (← attempt (expect symbols kind)))

mutual

/-- Parses an expression of operators that bind tighter than `power`.  There are at most `limit`
lexemes left. -/
def expression (symbols : Symbols Kind Result) : (limit power : Nat) → Parse Kind Result
  | 0, _ => throw (.unexpectedEnd "expression")
  | limit + 1, power => do
      match ← advance with
      | none => throw (.unexpectedEnd "expression")
      | some lexeme =>
          match (symbols[lexeme.kind]?).bind Symbol.start? with
          | none => throw (.cannotStart (symbols.name lexeme.kind) lexeme.span)
          | some start =>
              note (.expressionStarted (toString lexeme.kind) lexeme.span)
              let left ← run symbols (expression symbols limit) (start lexeme)
              extend symbols limit power left

/-- Extends an expression by what follows it, as long as that binds tighter than `power`. -/
def extend (symbols : Symbols Kind Result) : (limit power : Nat) → Result → Parse Kind Result
  | 0, _, left => return left
  | limit + 1, power, left => do
      match (← get).rest with
      | [] => return left
      | lexeme :: _ =>
          if symbols.power lexeme.kind ≤ power then
            return left
          else
            let _ ← advance
            match (symbols[lexeme.kind]?).bind Symbol.follow? with
            | none => throw (.cannotFollow (symbols.name lexeme.kind) lexeme.span)
            | some follow =>
                note (.expressionContinued (toString lexeme.kind) lexeme.span)
                let left ← run symbols (expression symbols limit) (follow lexeme left)
                extend symbols limit power left

end

/-- Parses all lexemes that are left as one expression. -/
def whole (symbols : Symbols Kind Result) : Parse Kind Result := do
  let result ← expression symbols (← get).rest.length 0
  match (← get).rest with
  | [] => return result
  | lexeme :: _ => throw (.trailingInput (symbols.name lexeme.kind) lexeme.span)

end Parse

end Residual.Pratt
