import Residual.Grammar.Basic

/-!
# Making expressions

The constructors of a grammar, and recursive rules: a link is declared first, used as an operand,
and defined later.
-/

set_option autoImplicit false

namespace Residual

/-- What can stand where an expression is expected. -/
inductive Operand where
  | expr (id : ExprId)
  | char (c : Char)
  | text (text : String)

instance : Coe ExprId Operand := ⟨.expr⟩

instance : Coe Char Operand := ⟨.char⟩

instance : Coe String Operand := ⟨.text⟩

namespace Grammar

def char (c : Char) : StateM Grammar ExprId :=
  push (.char c)

/-- A literal string.  A string of one character is that character. -/
def token (text : String) : StateM Grammar ExprId := do
  match text.toList with
  | [c] => char c
  | _ =>
      modify fun grammar => { grammar with arena := grammar.arena.intern text }
      push (.token text)

/-- The characters from `low` to `high`. -/
def range (low high : Char) : StateM Grammar (Except Error ExprId) := do
  if high < low then
    return .error (.invalidRange low high)
  else
    return .ok (← push (.range low high))

/-- The expression of an operand, which is made if it is a character or a string. -/
def operand : Operand → StateM Grammar ExprId
  | .expr id => return id
  | .char c => char c
  | .text text => token text

def alt (left right : Operand) : StateM Grammar ExprId := do
  let left ← operand left
  let right ← operand right
  push (.alt left right)

def cat (first second : Operand) : StateM Grammar ExprId := do
  let first ← operand first
  let second ← operand second
  push (.cat first second)

protected def not (lang : Operand) : StateM Grammar ExprId := do
  push (.not (← operand lang))

def opt (lang : Operand) : StateM Grammar ExprId := do
  push (.opt (← operand lang))

def plus (lang : Operand) : StateM Grammar ExprId := do
  push (.plus (← operand lang))

def star (lang : Operand) : StateM Grammar ExprId := do
  push (.star (← operand lang))

def rep (lang : Operand) (count : Count) : StateM Grammar ExprId := do
  push (.rep (← operand lang) count)

/-- The union of all operands, grouped from the left.  Without operands it is `∅`. -/
def choice : List Operand → StateM Grammar ExprId
  | [] => return .nil
  | first :: rest => do rest.foldlM (fun left right => alt left right) (← operand first)

/-- The concatenation of all operands, grouped from the left.  Without operands it is `ε`. -/
protected def seq : List Operand → StateM Grammar ExprId
  | [] => return .empty
  | first :: rest => do rest.foldlM (fun left right => cat left right) (← operand first)

/-- A link that is defined later. -/
def declare : StateM Grammar ExprId :=
  reserve

/-- Lets a declared link stand for an expression. -/
def define (link : ExprId) (lang : Operand) : StateM Grammar (Except Error Unit) := do
  let target ← operand lang
  if !(← get).arena.isLink link then
    return .error (.notAReference link)
  else if ← bindLink link target then
    modify clearTables
    return .ok ()
  else
    return .error (.alreadyDefined link)

/-- Lets a link that was just declared stand for an expression, which cannot fail. -/
def tie (link target : ExprId) : StateM Grammar Unit := do
  let _ ← bindLink link target
  modify clearTables

/-- A rule that may refer to itself: `body` gets the link that stands for the rule. -/
def recursive (body : ExprId → StateM Grammar ExprId) : StateM Grammar ExprId := do
  let link ← declare
  tie link (← body link)
  return link

end Grammar

end Residual
