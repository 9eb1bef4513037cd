/-!
# Lengths in bytes

Offsets into a source count the bytes of its characters in UTF-8.
-/

set_option autoImplicit false

namespace Residual.Text

/-- The number of bytes that characters occupy. -/
def byteLength : List Char → Nat
  | [] => 0
  | c :: rest => c.utf8Size + byteLength rest

@[simp]
theorem byteLength_nil : byteLength [] = 0 := rfl

@[simp]
theorem byteLength_cons (c : Char) (rest : List Char) :
    byteLength (c :: rest) = c.utf8Size + byteLength rest := rfl

@[simp]
theorem byteLength_append (first second : List Char) :
    byteLength (first ++ second) = byteLength first + byteLength second := by
  induction first with
  | nil => simp
  | cons c rest inductionHypothesis => simp [inductionHypothesis, Nat.add_assoc]

/-- A character occupies at least one byte. -/
theorem length_le_byteLength (text : List Char) : text.length ≤ byteLength text := by
  induction text with
  | nil => simp
  | cons c rest inductionHypothesis =>
      have positive := c.utf8Size_pos
      simp only [List.length_cons, byteLength_cons]
      omega

end Residual.Text
