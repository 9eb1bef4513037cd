import Residual.Grammar.Membership
import Residual.Lexicon.Basic

/-!
# Longest matches

All rules are derived in lock-step by the characters of a text.  The longest non-empty prefix that
some rule accepts is the match; among the rules that accept it the first one counts.
-/

set_option autoImplicit false

namespace Residual

namespace Lexicon

open Grammar

/-- A non-empty prefix of some text. -/
structure Match where
  /-- The position of the rule that accepts the prefix. -/
  rule : Nat
  /-- The number of characters of the prefix. -/
  length : Nat
  length_pos : 0 < length
  deriving DecidableEq

/-- What the rules make of one more character. -/
structure Advance where
  /-- The residual of each rule, or nothing if the rule accepts no continuation. -/
  residuals : List (Option ExprId)
  /-- The first rule that accepts the text read so far. -/
  acceptedBy : Option Nat

/-- The residual of one rule after one more character, and whether that character ends a text of
the rule.  Nullability is asked for only if `asked`. -/
def advanceRule (c : Char) (lang : ExprId) (asked : Bool) :
    StateM Grammar (Except Grammar.Error (Option ExprId × Bool)) := do
  match ← derivative lang c with
  | .error error => return .error error
  | .ok next =>
      let next ← canonicalize next
      if (← get).get next = .nil then
        return .ok (none, false)
      else if asked then
        return .ok (some next, ← nullable next)
      else
        return .ok (some next, false)

/-- Derives the rules from position `index` on, until all are done or one fails. -/
def advance (c : Char) (index : Nat) (acceptedBy : Option Nat) :
    List (Option ExprId) → StateM Grammar (Except Grammar.Error Advance)
  | [] => return .ok ⟨[], acceptedBy⟩
  | none :: rest => do
      match ← advance c (index + 1) acceptedBy rest with
      | .error error => return .error error
      | .ok after => return .ok { after with residuals := none :: after.residuals }
  | some lang :: rest => do
      match ← advanceRule c lang acceptedBy.isNone with
      | .error error => return .error error
      | .ok (residual, accepted) =>
          let acceptedBy := if accepted then some index else acceptedBy
          match ← advance c (index + 1) acceptedBy rest with
          | .error error => return .error error
          | .ok after => return .ok { after with residuals := residual :: after.residuals }

/-- Extends a prefix of `length` characters as long as some rule has a residual. -/
def munch (residuals : List (Option ExprId)) (length : Nat) (longest : Option Match) :
    (rest : List Char) → StateM Grammar (Except Grammar.Error (Option Match))
  | [] => return .ok longest
  | c :: rest => do
      match ← advance c 0 none residuals with
      | .error error => return .error error
      | .ok after =>
          let longest :=
            match after.acceptedBy with
            | some rule => some ⟨rule, length + 1, length.succ_pos⟩
            | none => longest
          if after.residuals.all Option.isNone then
            return .ok longest
          else
            munch after.residuals (length + 1) longest rest

/-- The longest prefix of a text that one of the languages contains, and the first of them that
does. -/
def longestMatch (langs : List ExprId) (text : List Char) :
    StateM Grammar (Except Grammar.Error (Option Match)) := do
  let residuals ← langs.mapM canonicalize
  munch (residuals.map some) 0 none text

end Lexicon

end Residual
