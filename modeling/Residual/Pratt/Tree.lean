import Residual.Pratt.Script

/-!
# Operator trees

The result of parsing with the usual roles of tokens, written with each operator before its
operands.
-/

set_option autoImplicit false

namespace Residual.Pratt

/-- An expression of operators. -/
inductive Tree (Kind : Type) where
  | atom (lexeme : Lexeme Kind)
  /-- An operator before its operand. -/
  | before (operator : Lexeme Kind) (operand : Tree Kind)
  /-- An operator after its operand. -/
  | after (operator : Lexeme Kind) (operand : Tree Kind)
  | binary (operator : Lexeme Kind) (left right : Tree Kind)
  | ternary (operator : Lexeme Kind) (left middle right : Tree Kind)
  /-- An expression between delimiters. -/
  | group (opening closing : Lexeme Kind) (inner : Tree Kind)
  /-- Expressions between delimiters. -/
  | list (opening : Lexeme Kind) (items : List (Tree Kind))
  /-- An expression in brackets after another one. -/
  | index (opening : Lexeme Kind) (left inner : Tree Kind)
  /-- Expressions between delimiters after another one. -/
  | call (opening : Lexeme Kind) (left : Tree Kind) (arguments : List (Tree Kind))
  /-- A lexeme before another one that is no expression. -/
  | label (operator name : Lexeme Kind)
  /-- A lexeme that takes everything after it as it is. -/
  | verbatim (operator : Lexeme Kind) (left : Tree Kind) (lexemes : List (Lexeme Kind))

namespace Tree

variable {Kind : Type}

mutual

/-- The tree as a text with operators first. -/
def render : Tree Kind → String
  | atom lexeme => lexeme.text
  | before operator operand | after operator operand =>
      "(" ++ operator.text ++ " " ++ operand.render ++ ")"
  | binary operator left right =>
      "(" ++ operator.text ++ " " ++ left.render ++ " " ++ right.render ++ ")"
  | ternary operator left middle right =>
      "(" ++ operator.text ++ " " ++ left.render ++ " " ++ middle.render ++ " " ++ right.render
        ++ ")"
  | group _ _ inner => inner.render
  | list _ items => "[" ++ ", ".intercalate (renderAll items) ++ "]"
  | index _ left inner => "(index " ++ left.render ++ " " ++ inner.render ++ ")"
  | call _ left arguments =>
      "(call " ++ left.render ++ " [" ++ ", ".intercalate (renderAll arguments) ++ "])"
  | label operator name => "(" ++ operator.text ++ " " ++ name.text ++ ")"
  | verbatim operator left lexemes =>
      "(" ++ " ".intercalate (operator.text :: left.render :: lexemes.map Lexeme.text) ++ ")"

def renderAll : List (Tree Kind) → List String
  | [] => []
  | tree :: trees => tree.render :: renderAll trees

end

end Tree

end Residual.Pratt
