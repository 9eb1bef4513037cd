import Residual.Pratt.Role

/-!
# Trees that respect binding powers

An operator table gives roles and powers to kinds of lexemes.  A tree respects the table if no
operator in it should have been given to another one: the operators at the left edge of an operand
bind tighter than what is before the operand, and what follows an operand binds no tighter than the
operators at its right edge.

Parentheses end both edges, whatever is between them.
-/

set_option autoImplicit false

namespace Residual.Pratt

variable {Kind : Type}

namespace Tree

/-- The lexemes of a tree of unary operators, binary operators and groups, from left to right.  Of
other trees not all lexemes are kept. -/
def lexemes : Tree Kind → List (Lexeme Kind)
  | atom lexeme => [lexeme]
  | before operator operand => operator :: operand.lexemes
  | after operator operand => operand.lexemes ++ [operator]
  | binary operator left right => left.lexemes ++ operator :: right.lexemes
  | group opening closing inner => opening :: inner.lexemes ++ [closing]
  | _ => []

/-- The operators that have an operand before them, on the path from the root to the first
lexeme. -/
def leftEdge : Tree Kind → List (Lexeme Kind)
  | binary operator left _ => operator :: left.leftEdge
  | after operator operand => operator :: operand.leftEdge
  | _ => []

end Tree

/-- What the lexemes of each kind do when all operators are unary or binary and all delimiters are
parentheses. -/
structure OperatorTable (Kind : Type) where
  start? : Kind → Option (StartRole Kind)
  follow? : Kind → Option (FollowRole Kind)
  /-- How strongly a lexeme binds the expression before it. -/
  power : Kind → Nat
  start_cases : ∀ {kind role}, start? kind = some role →
    role = .atom ∨ (∃ right, role = .operator right) ∨ ∃ close, role = .group close
  follow_cases : ∀ {kind role}, follow? kind = some role →
    role = .postfixed ∨ ∃ right, role = .binary right
  power_pos : ∀ {kind role}, follow? kind = some role → 1 ≤ power kind
  power_close : ∀ {kind close}, start? kind = some (.group close) → power close = 0

namespace OperatorTable

variable (table : OperatorTable Kind)

/-- How strongly a lexeme before an operand binds it. -/
def beforePower (kind : Kind) : Nat :=
  match table.start? kind with
  | some (.operator right) => right
  | _ => 0

/-- How strongly a lexeme between two operands binds the second one. -/
def rightPower (kind : Kind) : Nat :=
  match table.follow? kind with
  | some (.binary right) => right
  | _ => 0

/-- How strongly operators bind the operand after them, on the path from the root to the last
lexeme. -/
def rightEdge : Tree Kind → List Nat
  | .binary operator _ right => table.rightPower operator.kind :: rightEdge right
  | .before operator operand => table.beforePower operator.kind :: rightEdge operand
  | _ => []

/-- Each lexeme of the tree has its role, and each operand belongs to the operator that it is
given to. -/
inductive Respects : Tree Kind → Prop where
  | atom {lexeme : Lexeme Kind} :
      table.start? lexeme.kind = some .atom → Respects (.atom lexeme)
  | before {operator : Lexeme Kind} {operand : Tree Kind} {right : Nat} :
      table.start? operator.kind = some (.operator right) → Respects operand →
      (∀ inner ∈ operand.leftEdge, right < table.power inner.kind) →
      Respects (.before operator operand)
  | group {opening closing : Lexeme Kind} {inner : Tree Kind} :
      table.start? opening.kind = some (.group closing.kind) → Respects inner →
      Respects (.group opening closing inner)
  | binary {operator : Lexeme Kind} {left right : Tree Kind} {rightPower : Nat} :
      table.follow? operator.kind = some (.binary rightPower) → Respects left → Respects right →
      (∀ inner ∈ right.leftEdge, rightPower < table.power inner.kind) →
      (∀ inner ∈ table.rightEdge left, table.power operator.kind ≤ inner) →
      Respects (.binary operator left right)
  | after {operator : Lexeme Kind} {operand : Tree Kind} :
      table.follow? operator.kind = some .postfixed → Respects operand →
      (∀ inner ∈ table.rightEdge operand, table.power operator.kind ≤ inner) →
      Respects (.after operator operand)

/-- The lexemes are at their end, or the next one binds no tighter than `power`. -/
def Stops (power : Nat) (rest : List (Lexeme Kind)) : Prop :=
  ∀ next ∈ rest.head?, table.power next.kind ≤ power

/-- No operator at the right edge of the tree loses its operand to the next lexeme. -/
def Closed (tree : Tree Kind) (rest : List (Lexeme Kind)) : Prop :=
  ∀ right ∈ table.rightEdge tree, table.Stops right rest

variable {table} {tree : Tree Kind} {lexeme : Lexeme Kind} {rest : List (Lexeme Kind)} {power : Nat}

@[simp]
theorem stops_nil : table.Stops power [] := by
  simp [Stops]

@[simp]
theorem stops_cons : table.Stops power (lexeme :: rest) ↔ table.power lexeme.kind ≤ power := by
  simp [Stops]

theorem closed_cons :
    table.Closed tree (lexeme :: rest) ↔
      ∀ right ∈ table.rightEdge tree, table.power lexeme.kind ≤ right := by
  simp [Closed]

/-- Operators after an expression bind it. -/
theorem Respects.power_pos (respects : table.Respects tree) :
    ∀ operator ∈ tree.leftEdge, 0 < table.power operator.kind := by
  induction respects with
  | atom _ => simp [Tree.leftEdge]
  | before _ _ _ _ => simp [Tree.leftEdge]
  | group _ _ _ => simp [Tree.leftEdge]
  | binary role _ _ _ _ inLeft _ =>
      intro operator member
      rcases List.mem_cons.mp member with same | member
      · rw [same]
        exact table.power_pos role
      · exact inLeft operator member
  | after role _ _ inOperand =>
      intro operator member
      rcases List.mem_cons.mp member with same | member
      · rw [same]
        exact table.power_pos role
      · exact inOperand operator member

end OperatorTable

end Residual.Pratt
