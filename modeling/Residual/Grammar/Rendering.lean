import Residual.Grammar.Basic

/-!
# Renderings

The text of an expression.  An operand stands in parentheses unless it is a single character, `ε`
or `∅`, and characters that have a meaning are escaped, so that a rendering can be read in one way
only.  An expression that contains itself is shown as `…` inside itself.
-/

set_option autoImplicit false

namespace Residual

open Memo

/-- The characters that have a meaning of their own in a rendering. -/
def metacharacters : List Char :=
  ['\\', '|', '(', ')', '.', '*', '+', '?', '[', ']', '\x7b', '\x7d', '¬', '"', 'ε', '∅', '…']

/-- The characters that have a meaning of their own inside brackets. -/
def rangeMetacharacters : List Char :=
  ['\\', '-', ']']

/-- What stands for an expression inside itself. -/
def ellipsis : String := "…"

/-- The text of an expression, given the texts of its operands as they stand in it. -/
def Expr.render : Expr String → String
  | alt left right => left ++ "|" ++ right
  | any => "."
  | cat first second => first ++ second
  | char c => Text.escapeAmong metacharacters c
  | empty => "ε"
  | nil => "∅"
  | not lang => "¬" ++ lang
  | opt lang => lang ++ "?"
  | plus lang => lang ++ "+"
  | range low high =>
      "[" ++ Text.escapeAmong rangeMetacharacters low ++ "-"
        ++ Text.escapeAmong rangeMetacharacters high ++ "]"
  | rep lang count => lang ++ "\x7b" ++ toString count ++ "\x7d"
  | star lang => lang ++ "*"
  | token text => Text.quote text

namespace Arena

/-- The text of an expression from the texts of its operands. -/
def renderingEquation (arena : Arena) (id : ExprId) : Reading ExprId String String := do
  let render (operand : ExprId) : Reading ExprId String String := do
    let text ← .read (arena.resolve operand)
    return if (arena.get operand).isAtomic then text else "(" ++ text ++ ")"
  return (← (arena.get id).mapM render).render

end Arena

namespace Grammar

def renderings : Recursion Grammar ExprId String :=
  analysis Tables.renderings (fun f tables => { tables with renderings := f tables.renderings })
    ellipsis Arena.renderingEquation

def computeRendering (id : ExprId) : Eval Grammar String := do
  let arena := (← get).arena
  renderings.solve (arena.size + 1) (arena.resolve id)

/-- The text of an expression. -/
def render (id : ExprId) : StateM Grammar String :=
  (computeRendering id).settle ellipsis

end Grammar

end Residual
