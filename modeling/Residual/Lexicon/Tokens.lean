import Residual.Lexicon.Munch
import Residual.Text.Bytes

/-!
# Tokens

A source is split into tokens from left to right: the longest match at each place is a token or is
skipped.  Every match is non-empty, so that the rest of the source gets shorter and shorter.
-/

set_option autoImplicit false

namespace Residual

/-- A place in a source. -/
structure Place where
  /-- The number of bytes before. -/
  offset : Nat
  /-- The characters that follow. -/
  rest : List Char
  deriving Inhabited

namespace Place

/-- The start of a source. -/
def start (source : String) : Place :=
  ⟨0, source.toList⟩

/-- The place after some more characters. -/
def skip (place : Place) (length : Nat) : Place :=
  ⟨place.offset + Text.byteLength (place.rest.take length), place.rest.drop length⟩

/-- The end of the source. -/
def finish (place : Place) : Place :=
  place.skip place.rest.length

/-- The bytes from one place to a later one. -/
def span (first last : Place) : Span :=
  .ofOffsets first.offset last.offset

theorem length_skip_lt {place : Place} {length : Nat} (positive : 0 < length)
    (nonempty : place.rest ≠ []) : (place.skip length).rest.length < place.rest.length := by
  have := List.length_pos_iff.mpr nonempty
  simp only [skip, List.length_drop]
  omega

end Place

namespace Lexicon

variable {Kind : Type} [ToString Kind]

/-- What follows a place. -/
inductive Scan (Kind : Type) (place : Place) where
  /-- Nothing but skipped texts. -/
  | finished
  /-- A token, perhaps after skipped texts. -/
  | token (token : Token Kind) (next : Place) (shorter : next.rest.length < place.rest.length)
  | failed (error : Error)

/-- A scan from a later place, seen from an earlier one. -/
def Scan.widen {place next : Place} (shorter : next.rest.length < place.rest.length) :
    Scan Kind next → Scan Kind place
  | finished => finished
  | token found last shorterStill => token found last (Nat.lt_trans shorterStill shorter)
  | failed error => failed error

/-- Finds the next token. -/
def scan (place : Place) : StateM (Lexicon Kind) (Scan Kind place) := do
  match rest : place.rest with
  | [] => return .finished
  | c :: _ =>
      let rules := (← get).rules
      let langs := rules.toList.map Rule.lang
      match ← onGrammar (longestMatch langs place.rest) with
      | .error error => return .failed (.grammar error)
      | .ok none =>
          return .failed (.unexpectedCharacter c (place.span (place.skip 1)))
      | .ok (some found) =>
          let next := place.skip found.length
          have shorter : next.rest.length < place.rest.length :=
            Place.length_skip_lt found.length_pos (by simp [rest])
          let span := place.span next
          match (rules[found.rule]?).bind Rule.kind with
          | some kind =>
              onGrammar (modify (Grammar.note (.tokenFound (toString kind) span)))
              return .token ⟨kind, span⟩ next shorter
          | none =>
              onGrammar (modify (Grammar.note (.textSkipped span)))
              return (← scan next).widen shorter
termination_by place.rest.length

/-- The next token and the place after it.  After an error nothing follows. -/
def nextToken (place : Place) :
    StateM (Lexicon Kind) (Except Error (Option (Token Kind)) × Place) := do
  match ← scan place with
  | .finished => return (.ok none, place.finish)
  | .token token next _ => return (.ok (some token), next)
  | .failed error => return (.error error, place.finish)

/-- All tokens from a place on, or the first error. -/
def tokensFrom (place : Place) : StateM (Lexicon Kind) (Except Error (List (Token Kind))) := do
  match ← scan place with
  | .finished => return .ok []
  | .failed error => return .error error
  | .token token next _ =>
      match ← tokensFrom next with
      | .ok tokens => return .ok (token :: tokens)
      | .error error => return .error error
termination_by place.rest.length

/-- The tokens of a source, or the first error. -/
def tokens (source : String) : StateM (Lexicon Kind) (Except Error (List (Token Kind))) :=
  tokensFrom (.start source)

end Lexicon

end Residual
