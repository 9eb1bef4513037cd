/-!
# Spans

A span is the half-open range of byte offsets that some text occupies in its source.  Offsets are
32 bits wide; a source whose length fits has all its offsets represented exactly.
-/

set_option autoImplicit false

namespace Residual

/-- The bytes from `start`, inclusive, to `stop`, exclusive. -/
structure Span where
  start : UInt32 := 0
  stop : UInt32 := 0
  deriving DecidableEq, Inhabited

namespace Span

/-- The span between two offsets.  Only their low 32 bits are kept. -/
def ofOffsets (start stop : Nat) : Span where
  start := UInt32.ofNat start
  stop := UInt32.ofNat stop

/-- From the start of the first span to the end of the second one. -/
def combine (first second : Span) : Span where
  start := first.start
  stop := second.stop

instance : ToString Span where
  toString span := "[" ++ toString span.start.toNat ++ ".." ++ toString span.stop.toNat ++ "]"

/-- The text that the span covers in `source`, if its ends are boundaries of characters there. -/
def text? (span : Span) (source : String) : Option String :=
  let start : String.Pos.Raw := ⟨span.start.toNat⟩
  let stop : String.Pos.Raw := ⟨span.stop.toNat⟩
  if start ≤ stop ∧ start.isValid source ∧ stop.isValid source then
    some (String.Pos.Raw.extract source start stop)
  else
    none

theorem ofOffsets_start_of_lt {start : Nat} (stop : Nat) (fits : start < UInt32.size) :
    (ofOffsets start stop).start.toNat = start := by
  simpa [ofOffsets] using fits

theorem ofOffsets_stop_of_lt (start : Nat) {stop : Nat} (fits : stop < UInt32.size) :
    (ofOffsets start stop).stop.toNat = stop := by
  simpa [ofOffsets] using fits

end Span

end Residual
