import Residual.Grammar.Analysis

/-!
# Normal forms

`simplify` reduces an expression once from the bottom up, by rules that keep its language:

```text
L | L         → L                 ∅L, L∅        → ∅
M | L         → L | M   (*)       εL, Lε        → L
∅ | L, L | ∅  → L                 ¬¬L           → L
(L | M) | N   → L | (M | N)       ∅?, ε?        → ε
∅+            → ∅                 [a-a]         → a
ε+            → ε                 L{0}          → ε
∅*, ε*        → ε                 L{1}          → L
L**           → L*                L{∞}          → L*
```

where (*) applies if `M` is higher than `L`.  `canonicalize` simplifies until nothing changes.

While an expression is being simplified a link stands for its result, so that the simplified form
of a recursive rule refers to itself.  No rule looks behind an unbound link.
-/

set_option autoImplicit false

namespace Residual

namespace Grammar

open Memo

/-- Whether an operand was simplified to itself. -/
def unchanged (operand simplified : ExprId) : Eval Grammar Bool :=
  return (← get).resolve operand == simplified

/-- What a number stands for, if it is known. -/
def shape? (id : ExprId) : Eval Grammar (Option (Expr ExprId)) :=
  return (← get).arena.get? id

/-- The expression `id` with its only operand simplified.  It stays as it is if the operand did. -/
def rebuild (id operand simplified : ExprId) (e : Expr ExprId) : Eval Grammar ExprId := do
  if ← unchanged operand simplified then return id else push e

/-- The union of two simplified operands, which are those of `id` unless they changed. -/
def simplifyAlt (id left right simpleLeft simpleRight : ExprId) : Eval Grammar ExprId := do
  let (l, r) ← do
    match ← shape? simpleLeft with
    | some (.alt inner rest) =>
        let inner := (← get).resolve inner
        pure (inner, ← push (.alt rest simpleRight))
    | _ => pure (simpleLeft, simpleRight)
  let leftHeight ← computeHeight l
  let rightHeight ← computeHeight r
  let (l, r) := if leftHeight > rightHeight then (r, l) else (l, r)
  if ← computeEqual l r then
    return l
  else if (← shape? r) = some .nil then
    return l
  else if (← shape? l) = some .nil then
    return r
  else if (← unchanged left l) && (← unchanged right r) then
    return id
  else
    push (.alt l r)

/-- The concatenation of two simplified operands, which are those of `id` unless they changed. -/
def simplifyCat (id first second simpleFirst simpleSecond : ExprId) : Eval Grammar ExprId := do
  match ← shape? simpleFirst, ← shape? simpleSecond with
  | some .nil, _ => return simpleFirst
  | _, some .nil => return simpleSecond
  | some .empty, _ => return simpleSecond
  | _, some .empty => return simpleFirst
  | _, _ =>
      if (← unchanged first simpleFirst) && (← unchanged second simpleSecond) then
        return id
      else
        push (.cat simpleFirst simpleSecond)

/-- The simplified form of a resolved expression, given those of others. -/
def simplifyStep (recur : ExprId → Eval Grammar ExprId) (id : ExprId) : Eval Grammar ExprId := do
  let simplify (operand : ExprId) : Eval Grammar ExprId := do
    recur ((← get).resolve operand)
  match (← get).get id with
  | .alt left right =>
      let simpleLeft ← simplify left
      let simpleRight ← simplify right
      simplifyAlt id left right simpleLeft simpleRight
  | .cat first second =>
      let simpleFirst ← simplify first
      let simpleSecond ← simplify second
      simplifyCat id first second simpleFirst simpleSecond
  | .not lang =>
      let simple ← simplify lang
      match ← shape? simple with
      | some (.not inner) => return (← get).resolve inner
      | _ => rebuild id lang simple (.not simple)
  | .opt lang =>
      let simple ← simplify lang
      match ← shape? simple with
      | some .nil | some .empty => return .empty
      | _ => rebuild id lang simple (.opt simple)
  | .plus lang =>
      let simple ← simplify lang
      match ← shape? simple with
      | some .nil | some .empty => return simple
      | _ => rebuild id lang simple (.plus simple)
  | .star lang =>
      let simple ← simplify lang
      match ← shape? simple with
      | some .nil | some .empty => return .empty
      | some (.star _) => return simple
      | _ => rebuild id lang simple (.star simple)
  | .range low high =>
      if low = high then push (.char low) else return id
  | .rep _ (.finite 0) => return .empty
  | .rep lang (.finite 1) => simplify lang
  | .rep lang .infinite =>
      let simple ← simplify lang
      push (.star simple)
  | .rep lang count =>
      let simple ← simplify lang
      rebuild id lang simple (.rep simple count)
  | .any | .char _ | .empty | .nil | .token _ => return id

/-- The simplified forms, by expression. -/
def simplifications : Recursion Grammar ExprId ExprId :=
  transformation Tables.simplified
    (fun f tables => { tables with simplified := f tables.simplified }) simplifyStep

def computeSimplified (id : ExprId) : Eval Grammar ExprId := do
  let arena := (← get).arena
  simplifications.solve (arena.size + 1) (arena.resolve id)

/-- Reduces an expression once from the bottom up. -/
def simplify (id : ExprId) : StateM Grammar ExprId :=
  (computeSimplified id).settle id

/-- An expression that was simplified several times. -/
structure Simplified where
  expr : ExprId
  /-- The number of passes after which nothing changed any more, if there is one. -/
  stableAfter : Option Nat

/-- Simplifies up to `passes` times, after `done` passes that changed something. -/
def simplifyWithin (id : ExprId) (done : Nat) : (passes : Nat) → StateM Grammar Simplified
  | 0 => return ⟨id, none⟩
  | passes + 1 => do
      let next ← simplify id
      if ← equal id next then
        return ⟨next, some (done + 1)⟩
      else
        simplifyWithin next (done + 1) passes

/-- Simplifies an expression until nothing changes. -/
def canonicalize (id : ExprId) : StateM Grammar ExprId := do
  let passes := (← get).config.simplify.maxPasses
  let result ← simplifyWithin id 0 passes
  match result.stableAfter with
  | some used => modify (note (.canonicalized id used))
  | none => modify (note (.notCanonical id passes))
  return result.expr

end Grammar

end Residual
