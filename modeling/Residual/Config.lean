/-!
# Configuration

The limits of a grammar's algorithms.
-/

set_option autoImplicit false

namespace Residual

/-- How expressions are simplified. -/
structure SimplifyConfig where
  /-- How often an expression is simplified at most on the way to its canonical form. -/
  maxPasses : Nat := 64
  /-- Whether the residual of a text is made canonical after every character, or only at the ends
  of the text. -/
  eachStep : Bool := true
  deriving DecidableEq, Inhabited

/-- How fixed points are computed. -/
structure FixpointConfig where
  /-- How often nullability and equality are evaluated at most on recursive rules. -/
  maxPasses : Nat := 32
  deriving DecidableEq, Inhabited

/-- The configuration of a grammar. -/
structure Config where
  simplify : SimplifyConfig := {}
  fixpoint : FixpointConfig := {}
  deriving DecidableEq, Inhabited

end Residual
