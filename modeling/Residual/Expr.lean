/-!
# Expressions

One level of a regular language expression.  Operands are left abstract: in an arena they are
expression numbers, in a listing they are positions of the list.

An expression is its *shape*, which is the operator with its own fields, together with the list
of its operands.
-/

set_option autoImplicit false

namespace Residual

/-- The number of an expression, its position in the order of creation. -/
structure ExprId where
  number : Nat
  deriving DecidableEq, Inhabited

instance : Hashable ExprId where
  hash id := .ofNat id.number

instance : ToString ExprId where
  toString id := "#" ++ toString id.number

/-- How often a repetition repeats its operand. -/
inductive Count where
  | finite (times : Nat)
  /-- Any number of times, so that `L{∞}` and `L*` are the same language. -/
  | infinite
  deriving DecidableEq

instance : ToString Count where
  toString
    | .finite times => toString times
    | .infinite => "∞"

/-- An operator of regular language expressions, applied to operands of type `Operand`. -/
inductive Expr (Operand : Type) where
  /-- `.`, any single character. -/
  | any
  /-- `ε`, the empty string alone. -/
  | empty
  /-- `∅`, no string at all. -/
  | nil
  | char (c : Char)
  /-- `[a-b]`, both bounds included. -/
  | range (low high : Char)
  /-- A literal string. -/
  | token (text : String)
  /-- `L | M` -/
  | alt (left right : Operand)
  /-- `L M` -/
  | cat (first second : Operand)
  /-- `¬L` -/
  | not (lang : Operand)
  /-- `L?` -/
  | opt (lang : Operand)
  /-- `L+` -/
  | plus (lang : Operand)
  /-- `L*` -/
  | star (lang : Operand)
  /-- `L{n}` -/
  | rep (lang : Operand) (count : Count)
  deriving DecidableEq

namespace Expr

variable {Operand Other : Type}

/-- The operands, from left to right. -/
def operands : Expr Operand → List Operand
  | alt left right => [left, right]
  | cat first second => [first, second]
  | not lang | opt lang | plus lang | star lang | rep lang _ => [lang]
  | any | empty | nil | char _ | range .. | token _ => []

/-- The same operator on other operands. -/
def map (f : Operand → Other) : Expr Operand → Expr Other
  | any => any
  | empty => empty
  | nil => nil
  | char c => char c
  | range low high => range low high
  | token text => token text
  | alt left right => alt (f left) (f right)
  | cat first second => cat (f first) (f second)
  | not lang => not (f lang)
  | opt lang => opt (f lang)
  | plus lang => plus (f lang)
  | star lang => star (f lang)
  | rep lang count => rep (f lang) count

/-- The same operator on other operands, which are computed from left to right. -/
def mapM {m : Type → Type} [Monad m] (f : Operand → m Other) : Expr Operand → m (Expr Other)
  | any => return any
  | empty => return empty
  | nil => return nil
  | char c => return char c
  | range low high => return range low high
  | token text => return token text
  | alt left right => return alt (← f left) (← f right)
  | cat first second => return cat (← f first) (← f second)
  | not lang => return not (← f lang)
  | opt lang => return opt (← f lang)
  | plus lang => return plus (← f lang)
  | star lang => return star (← f lang)
  | rep lang count => return rep (← f lang) count

/-- The operator and its own fields, without the operands. -/
def shape (e : Expr Operand) : Expr Unit :=
  e.map fun _ => ()

/-- The name of the operator. -/
def kind : Expr Operand → String
  | any => "any"
  | empty => "empty"
  | nil => "nil"
  | char _ => "char"
  | range .. => "range"
  | token _ => "token"
  | alt .. => "alt"
  | cat .. => "cat"
  | not _ => "not"
  | opt _ => "opt"
  | plus _ => "plus"
  | star _ => "star"
  | rep .. => "rep"

/-- The operator's own fields, as texts. -/
def fields : Expr Operand → List String
  | char c => [c.toString]
  | range low high => [low.toString, high.toString]
  | token text => [text]
  | rep _ count => [toString count]
  | _ => []

/-- Rendered without parentheses as an operand. -/
def isAtomic : Expr Operand → Bool
  | char _ | empty | nil => true
  | _ => false

@[simp]
theorem operands_map (f : Operand → Other) (e : Expr Operand) :
    (e.map f).operands = e.operands.map f := by
  cases e <;> rfl

@[simp]
theorem shape_map (f : Operand → Other) (e : Expr Operand) :
    (e.map f).shape = e.shape := by
  cases e <;> rfl

/-- An expression is determined by its shape and its operands. -/
theorem ext_of_shape {e e' : Expr Operand} (sameShape : e.shape = e'.shape)
    (sameOperands : e.operands = e'.operands) : e = e' := by
  cases e <;> cases e' <;> simp_all [shape, map, operands]

end Expr

end Residual
