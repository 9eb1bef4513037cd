import Mathlib.Computability.MyhillNerode
import Mathlib.Order.CompletePartialOrder
import Residual.Expr

/-!
# Languages of expressions

What an operator makes of the languages of its operands, and what it makes of their derivatives:
`derivative` is the derivative of `language`, given the languages of the operands and their
derivatives.
-/

set_option autoImplicit false

namespace Residual

open Computability

/-- A language under a condition: if that does not hold, no string at all. -/
def Languages.under (condition : Prop) (L : Language Char) : Language Char :=
  {word | condition ∧ word ∈ L}

namespace Expr

/-- The language of an expression whose operands are languages.  `.` stands for the empty string
too, and an empty literal stands for nothing. -/
def language : Expr (Language Char) → Language Char
  | any => {word | word.length ≤ 1}
  | empty => 1
  | nil => 0
  | char c => {[c]}
  | range low high => {word | ∃ c, low ≤ c ∧ c ≤ high ∧ word = [c]}
  | token text => {word | word ≠ [] ∧ word = text.toList}
  | alt left right => left + right
  | cat first second => first * second
  | not lang => langᶜ
  | opt lang => lang + 1
  | plus lang => lang * lang∗
  | star lang => lang∗
  | rep lang (.finite times) => lang ^ times
  | rep lang .infinite => lang∗

/-- A language together with its derivative with respect to some character. -/
structure Derived where
  lang : Language Char
  rest : Language Char

/-- The derivative of an expression with respect to `c`, from its operands' languages and
derivatives. -/
noncomputable def derivative (c : Char) : Expr Derived → Language Char
  | any => 1
  | empty | nil => 0
  | char c' => {word | c' = c ∧ word = []}
  | range low high => {word | low ≤ c ∧ c ≤ high ∧ word = []}
  | token text => {word | c :: word = text.toList}
  | alt left right => left.rest + right.rest
  | cat first second =>
      first.rest * second.lang + Languages.under ([] ∈ first.lang) second.rest
  | not lang => lang.restᶜ
  | opt lang => lang.rest
  | plus lang => lang.rest * lang.lang∗
  | star lang => lang.rest * lang.lang∗
  | rep _ (.finite 0) => 0
  | rep lang (.finite (times + 1)) => lang.rest * lang.lang ^ times
  | rep lang .infinite => lang.rest * lang.lang∗

end Expr

namespace Languages

variable {L M : Language Char} {c : Char} {word : List Char}

theorem le_of_forall_mem (below : ∀ word ∈ L, word ∈ M) : L ≤ M := below

theorem mem_quotient : word ∈ L.leftQuotient [c] ↔ c :: word ∈ L := Iff.rfl

theorem quotient_mono {text : List Char} (below : L ≤ M) :
    L.leftQuotient text ≤ M.leftQuotient text :=
  fun _ member => below member

theorem quotient_mul : (L * M).leftQuotient [c] =
    L.leftQuotient [c] * M + under ([] ∈ L) (M.leftQuotient [c]) := by
  ext word
  rw [mem_quotient, Language.mem_mul, Language.mem_add, Language.mem_mul]
  constructor
  · rintro ⟨u, inL, v, inM, split⟩
    cases u with
    | nil =>
        refine .inr ⟨inL, ?_⟩
        rw [mem_quotient, ← split]
        exact inM
    | cons c' u =>
        obtain ⟨rfl, rfl⟩ := List.cons.inj split
        exact .inl ⟨u, inL, v, inM, rfl⟩
  · rintro (⟨u, inL, v, inM, rfl⟩ | ⟨nullable, inM⟩)
    · exact ⟨c :: u, inL, v, inM, rfl⟩
    · exact ⟨[], nullable, c :: word, inM, rfl⟩

theorem quotient_star : (L∗).leftQuotient [c] = L.leftQuotient [c] * L∗ := by
  ext word
  rw [mem_quotient, Language.mem_kstar_iff_exists_nonempty, Language.mem_mul]
  constructor
  · rintro ⟨pieces, split, inside⟩
    match pieces with
    | [] => simp at split
    | [] :: _ => exact absurd rfl (inside [] (by simp)).2
    | (c' :: u) :: pieces =>
        obtain ⟨rfl, rfl⟩ := List.cons.inj split
        exact ⟨u, (inside (c :: u) (by simp)).1, pieces.flatten,
          Language.join_mem_kstar fun y member => (inside y (by simp [member])).1, rfl⟩
  · rintro ⟨u, inL, v, inStar, rfl⟩
    obtain ⟨pieces, rfl, inside⟩ := Language.mem_kstar_iff_exists_nonempty.mp inStar
    refine ⟨(c :: u) :: pieces, rfl, ?_⟩
    intro y member
    rcases List.mem_cons.mp member with rfl | member
    · exact ⟨inL, by simp⟩
    · exact inside y member

/-- Shorter powers of a language with the empty string are among the longer ones. -/
theorem pow_le_pow_succ (nullable : [] ∈ L) (times : Nat) : L ^ times ≤ L ^ (times + 1) := by
  refine le_of_forall_mem fun word member => ?_
  rw [pow_succ', Language.mem_mul]
  exact ⟨[], nullable, word, member, rfl⟩

theorem quotient_pow (times : Nat) :
    (L ^ (times + 1)).leftQuotient [c] = L.leftQuotient [c] * L ^ times := by
  induction times with
  | zero =>
      rw [zero_add, pow_one, pow_zero, mul_one]
  | succ times inductionHypothesis =>
      rw [pow_succ' L (times + 1), quotient_mul, inductionHypothesis]
      refine le_antisymm ?_ (le_of_forall_mem fun word member => .inl member)
      refine le_of_forall_mem fun word member => ?_
      rcases (Language.mem_add _ _ _).mp member with member | ⟨nullable, member⟩
      · exact member
      · -- a leading empty piece can be given up, since there is one to spare
        exact mul_le_mul_right (pow_le_pow_succ nullable times) _ member

theorem quotient_add : (L + M).leftQuotient [c] = L.leftQuotient [c] + M.leftQuotient [c] := rfl

theorem quotient_one : (1 : Language Char).leftQuotient [c] = 0 := by
  ext word
  simp [Language.mem_one]

end Languages

namespace Expr

open Languages

/-- The condition for the empty string, from the conditions for the operands. -/
def nullable : Expr Prop → Prop
  | any | empty | opt _ | star _ | rep _ (.finite 0) | rep _ .infinite => True
  | nil | char _ | range .. | token _ => False
  | alt left right => left ∨ right
  | cat first second => first ∧ second
  | not lang => ¬ lang
  | plus lang | rep lang (.finite (_ + 1)) => lang

/-- `nullable` tells whether `language` contains the empty string. -/
theorem nil_mem_language {Operand : Type} (L : Operand → Language Char) (e : Expr Operand) :
    [] ∈ (e.map L).language ↔ (e.map fun o => [] ∈ L o).nullable := by
  have nil_mem_mul : ∀ L M : Language Char, [] ∈ L * M ↔ [] ∈ L ∧ [] ∈ M := by
    intro L M
    simp [Language.mem_mul]
  have nil_mem_pow : ∀ (L : Language Char) (times : Nat), [] ∈ L ^ (times + 1) ↔ [] ∈ L := by
    intro L times
    induction times with
    | zero => rw [zero_add, pow_one]
    | succ times inductionHypothesis =>
        rw [pow_succ, nil_mem_mul, inductionHypothesis, and_self]
  cases e with
  | any => exact iff_of_true (Nat.zero_le 1) trivial
  | empty => exact iff_of_true (Language.nil_mem_one) trivial
  | nil => exact iff_of_false (Language.notMem_zero []) id
  | char c => exact iff_of_false (fun member => by cases (member : [] = [c])) id
  | range low high => exact iff_of_false (by rintro ⟨c, _, _, same⟩; cases same) id
  | token text => exact iff_of_false (fun member => member.1 rfl) id
  | alt left right => exact Language.mem_add _ _ _
  | cat first second => exact nil_mem_mul _ _
  | not lang => exact Iff.rfl
  | opt lang => exact iff_of_true (.inr Language.nil_mem_one) trivial
  | plus lang =>
      refine (nil_mem_mul _ _).trans (and_iff_left ?_)
      exact Language.nil_mem_kstar _
  | star lang => exact iff_of_true (Language.nil_mem_kstar _) trivial
  | rep lang count =>
      match count with
      | .finite 0 => exact iff_of_true Language.nil_mem_one trivial
      | .finite (times + 1) => exact nil_mem_pow _ _
      | .infinite => exact iff_of_true (Language.nil_mem_kstar _) trivial

/-- Without complements the condition for the empty string grows with those for the operands. -/
theorem nullable_mono {Operand : Type} {P Q : Operand → Prop} {e : Expr Operand}
    (noComplement : e.shape ≠ .not ()) (implies : ∀ o ∈ e.operands, P o → Q o)
    (nullable : (e.map P).nullable) : (e.map Q).nullable := by
  cases e with
  | alt left right =>
      exact nullable.imp (implies left (by simp [operands])) (implies right (by simp [operands]))
  | cat first second =>
      exact nullable.imp (implies first (by simp [operands])) (implies second (by simp [operands]))
  | not lang => exact absurd rfl noComplement
  | plus lang => exact implies lang (by simp [operands]) nullable
  | rep lang count =>
      rcases count with (_ | times) | _
      case rep.finite.succ => exact implies lang (by simp [operands]) nullable
      all_goals exact nullable
  | _ => exact nullable

theorem language_range_self (c : Char) :
    (range c c : Expr (Language Char)).language = (char c : Expr (Language Char)).language := by
  ext word
  constructor
  · rintro ⟨c', low, high, rfl⟩
    obtain rfl := Char.le_antisymm low high
    rfl
  · rintro rfl
    exact ⟨c, Char.le_refl c, Char.le_refl c, rfl⟩

/-- `derivative` is the derivative of `language`. -/
theorem derivative_map {Operand : Type} (c : Char) (L : Operand → Language Char)
    (e : Expr Operand) :
    (e.map fun o => Derived.mk (L o) ((L o).leftQuotient [c])).derivative c =
      (e.map L).language.leftQuotient [c] := by
  cases e with
  | any =>
      ext word
      change word = [] ↔ (c :: word).length ≤ 1
      simp
  | empty => exact quotient_one.symm
  | nil => rfl
  | char c' =>
      ext word
      change c' = c ∧ word = [] ↔ c :: word = [c']
      simp [eq_comm]
  | range low high =>
      ext word
      change low ≤ c ∧ c ≤ high ∧ word = [] ↔ ∃ c', low ≤ c' ∧ c' ≤ high ∧ c :: word = [c']
      simp
  | token text =>
      ext word
      change c :: word = text.toList ↔ c :: word ≠ [] ∧ c :: word = text.toList
      simp
  | alt left right => rfl
  | cat first second => exact quotient_mul.symm
  | not lang => rfl
  | opt lang =>
      change (L lang).leftQuotient [c] = (L lang + 1).leftQuotient [c]
      rw [quotient_add, quotient_one, add_zero]
  | plus lang =>
      change (L lang).leftQuotient [c] * (L lang)∗ = (L lang * (L lang)∗).leftQuotient [c]
      refine le_antisymm ?_ ?_
      · rw [quotient_mul]
        exact le_of_forall_mem fun word member => .inl member
      · rw [← quotient_star]
        exact quotient_mono mul_kstar_le_kstar
  | star lang => exact quotient_star.symm
  | rep lang count =>
      match count with
      | .finite 0 => exact quotient_one.symm
      | .finite (times + 1) => exact (quotient_pow times).symm
      | .infinite => exact quotient_star.symm

/-- Without complements the derivative grows with the operands' languages and derivatives. -/
theorem derivative_mono {Operand : Type} {c : Char} {L L' R R' : Operand → Language Char}
    {e : Expr Operand} (noComplement : e.shape ≠ .not ()) (below : ∀ o ∈ e.operands, L o ≤ L' o)
    (below' : ∀ o ∈ e.operands, R o ≤ R' o) :
    (e.map fun o => Derived.mk (L o) (R o)).derivative c ≤
      (e.map fun o => Derived.mk (L' o) (R' o)).derivative c := by
  cases e with
  | alt left right =>
      exact add_le_add (below' left (by simp [operands])) (below' right (by simp [operands]))
  | cat first second =>
      refine add_le_add (mul_le_mul' (below' first (by simp [operands]))
        (below second (by simp [operands]))) ?_
      refine Languages.le_of_forall_mem fun word member => ?_
      exact ⟨below first (by simp [operands]) member.1, below' second (by simp [operands]) member.2⟩
  | not lang => exact absurd rfl noComplement
  | opt lang => exact below' lang (by simp [operands])
  | plus lang | star lang =>
      exact mul_le_mul' (below' lang (by simp [operands])) (kstar_mono (below lang (by simp [operands])))
  | rep lang count =>
      rcases count with (_ | times) | _
      case rep.finite.zero => exact le_rfl
      case rep.finite.succ =>
        exact mul_le_mul' (below' lang (by simp [operands]))
          (pow_le_pow_left' (below lang (by simp [operands])) times)
      case rep.infinite =>
        exact mul_le_mul' (below' lang (by simp [operands]))
          (kstar_mono (below lang (by simp [operands])))
  | _ => exact le_rfl

end Expr

end Residual
