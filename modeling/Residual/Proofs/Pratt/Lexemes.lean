import Residual.Pratt.Parser
import Residual.Proofs.Ensures

/-!
# One lexeme at a time

What the operations of a parser do with the next lexeme.
-/

set_option autoImplicit false

namespace Residual.Pratt.Parse

variable {Kind Result : Type} [BEq Kind] [Hashable Kind] [ToString Kind]
  {symbols : Symbols Kind Result} {limit power : Nat} {lexeme : Lexeme Kind} {left : Result}
  {rest : List (Lexeme Kind)} {journal : Journal}

omit [BEq Kind] [Hashable Kind] [ToString Kind] in
theorem advance_cons :
    advance ⟨lexeme :: rest, journal⟩ = .ok (some lexeme) ⟨rest, journal⟩ := rfl

theorem expect_cons [LawfulBEq Kind] :
    expect symbols lexeme.kind ⟨lexeme :: rest, journal⟩ = .ok lexeme ⟨rest, journal⟩ := by
  rw [expect]
  apply (bind_of_ok advance_cons).trans
  simp only [beq_self_eq_true, if_true]
  rfl

omit [BEq Kind] [Hashable Kind] [ToString Kind] in
theorem get_eq (input : Input Kind) : (get : Parse Kind (Input Kind)) input = .ok input input := rfl

theorem expression_nil :
    expression symbols (limit + 1) power ⟨[], journal⟩ =
      .error (.unexpectedEnd "expression") ⟨[], journal⟩ := by
  rw [expression]
  rfl

theorem expression_cons {start : Lexeme Kind → Script Kind Result Result}
    (found : (symbols[lexeme.kind]?).bind Symbol.start? = some start) :
    expression symbols (limit + 1) power ⟨lexeme :: rest, journal⟩ =
      (do
        let left ← run symbols (expression symbols limit) (start lexeme)
        extend symbols limit power left : Parse Kind Result)
        ⟨rest, journal.note (.expressionStarted (toString lexeme.kind) lexeme.span)⟩ := by
  rw [expression]
  apply (bind_of_ok advance_cons).trans
  simp only [found]
  rfl

theorem expression_cons_eq_error (found : (symbols[lexeme.kind]?).bind Symbol.start? = none) :
    expression symbols (limit + 1) power ⟨lexeme :: rest, journal⟩ =
      .error (.cannotStart (symbols.name lexeme.kind) lexeme.span) ⟨rest, journal⟩ := by
  rw [expression]
  apply (bind_of_ok advance_cons).trans
  simp only [found]
  rfl

section Extending

variable (tighter : power < symbols.power lexeme.kind)

include tighter

theorem extend_cons {follow : Lexeme Kind → Result → Script Kind Result Result}
    (found : (symbols[lexeme.kind]?).bind Symbol.follow? = some follow) :
    extend symbols (limit + 1) power left ⟨lexeme :: rest, journal⟩ =
      (do
        let left ← run symbols (expression symbols limit) (follow lexeme left)
        extend symbols limit power left : Parse Kind Result)
        ⟨rest, journal.note (.expressionContinued (toString lexeme.kind) lexeme.span)⟩ := by
  rw [extend]
  apply (bind_of_ok (get_eq _)).trans
  simp only [Nat.not_le.mpr tighter, if_false]
  apply (bind_of_ok advance_cons).trans
  simp only [found]
  rfl

theorem extend_cons_eq_error (found : (symbols[lexeme.kind]?).bind Symbol.follow? = none) :
    extend symbols (limit + 1) power left ⟨lexeme :: rest, journal⟩ =
      .error (.cannotFollow (symbols.name lexeme.kind) lexeme.span) ⟨rest, journal⟩ := by
  rw [extend]
  apply (bind_of_ok (get_eq _)).trans
  simp only [Nat.not_le.mpr tighter, if_false]
  apply (bind_of_ok advance_cons).trans
  simp only [found]
  rfl

end Extending

end Residual.Pratt.Parse
