import Mathlib.Data.Fintype.Card
import Mathlib.Logic.Relation
import Mathlib.Order.WellFounded
import Residual.Proofs.Arena.Interpretation
import Residual.Proofs.Expr.Language

/-!
# The language of an expression

An expression whose graph has no cycle has its language by structural recursion, which `Denotes`
states as a relation.  An expression without complements has the language that the least solution
of the equations below it gives to it (`IsLeastSolution`), whether there are cycles or not.

`Means` covers both senses in which an expression can have a language, and the lemmas about it
hold for both.
-/

set_option autoImplicit false

namespace Residual

open Computability

namespace Arena

variable {arena before after : Arena} {id root operand : ExprId} {e : Expr ExprId}
  {lang lang' : Language Char}

/-! ## The graph below an expression -/

/-- The second number is an operand of what the first one stands for, resolved. -/
def Child (arena : Arena) (x y : ExprId) : Prop :=
  y ∈ arena.operands x

/-- The resolved numbers below an expression, itself included. -/
def Reaches (arena : Arena) (root id : ExprId) : Prop :=
  Relation.ReflTransGen arena.Child (arena.resolve root) id

/-- No cycle can be reached. -/
def Acyclic (arena : Arena) (root : ExprId) : Prop :=
  ∀ id, arena.Reaches root id → ¬ Relation.TransGen arena.Child id id

/-- No unbound link can be reached. -/
def Defined (arena : Arena) (root : ExprId) : Prop :=
  ∀ id, arena.Reaches root id → arena.isUnbound id = false

/-- All operators that can be reached are of some kind. -/
def Throughout (arena : Arena) (root : ExprId) (kind : Expr Unit → Prop) : Prop :=
  ∀ id, arena.Reaches root id → kind (arena.get id).shape

/-- No complement can be reached. -/
def ComplementFree (arena : Arena) (root : ExprId) : Prop :=
  arena.Throughout root fun operator => operator ≠ .not ()

/-- The operator is not a repetition without a count or with the count zero. -/
def IsCounted (operator : Expr Unit) : Prop :=
  operator ≠ .rep () (.finite 0) ∧ operator ≠ .rep () .infinite

instance : DecidablePred IsCounted :=
  fun operator => inferInstanceAs (Decidable (operator ≠ _ ∧ operator ≠ _))

/-- All repetitions that can be reached have a count, and it is not zero. -/
def Counted (arena : Arena) (root : ExprId) : Prop :=
  arena.Throughout root IsCounted

/-! ## Languages -/

/-- The language of an expression by structural recursion: that of its operator on the languages
of its operands.  References have the languages of their targets. -/
inductive Denotes (arena : Arena) : ExprId → Language Char → Prop where
  | intro {id : ExprId} (L : ExprId → Language Char) :
      (∀ operand ∈ (arena.get id).operands, Denotes arena operand (L operand)) →
      Denotes arena id ((arena.get id).map L).language

/-- An assignment of languages that satisfies the equations of all expressions below `root`. -/
def Solves (arena : Arena) (root : ExprId) (L : ExprId → Language Char) : Prop :=
  ∀ id, arena.Reaches root id →
    L id = ((arena.get id).map fun operand => L (arena.resolve operand)).language

/-- The least of all assignments that satisfy the equations below `root`. -/
def IsLeastSolution (arena : Arena) (root : ExprId) (L : ExprId → Language Char) : Prop :=
  arena.Solves root L ∧
    ∀ L', arena.Solves root L' → ∀ id, arena.Reaches root id → L id ≤ L' id

/-- The language of `root` in the least solution of the equations below it. -/
def Generates (arena : Arena) (root : ExprId) (lang : Language Char) : Prop :=
  ∃ L, arena.IsLeastSolution root L ∧ L (arena.resolve root) = lang

end Arena

namespace Interpretation

/-- Union, concatenation and so on, but a fixed language for complements, which are not monotone. -/
def wordsWith (complement : Language Char) : Interpretation (Language Char) where
  apply
    | .not _ => complement
    | e => e.language
  monotone := by
    intro e e' sameShape operands
    cases e <;> cases e' <;> cases sameShape <;>
      simp only [Expr.operands, List.forall₂_cons, List.forall₂_nil_left_iff, and_true]
        at operands
    case alt.alt.refl => exact add_le_add operands.1 operands.2
    case cat.cat.refl => exact mul_le_mul' operands.1 operands.2
    case opt.opt.refl => exact add_le_add operands le_rfl
    case plus.plus.refl => exact mul_le_mul' operands (kstar_mono operands)
    case star.star.refl => exact kstar_mono operands
    case rep.rep.refl count _ =>
      match count with
      | .finite times => exact pow_le_pow_left' operands times
      | .infinite => exact kstar_mono operands
    all_goals exact le_rfl

theorem wordsWith_apply {complement : Language Char} {e : Expr (Language Char)}
    (noComplement : e.shape ≠ .not ()) : (wordsWith complement).apply e = e.language := by
  cases e with
  | not lang => exact absurd rfl noComplement
  | _ => rfl

/-- Complements have no strings. -/
def words : Interpretation (Language Char) :=
  wordsWith 0

theorem words_apply {e : Expr (Language Char)} (noComplement : e.shape ≠ .not ()) :
    words.apply e = e.language :=
  wordsWith_apply noComplement

/-- Without complements languages grow with those of the operands. -/
theorem language_map_mono {e : Expr ExprId} {L L' : ExprId → Language Char}
    (noComplement : e.shape ≠ .not ()) (below : ∀ o ∈ e.operands, L o ≤ L' o) :
    (e.map L).language ≤ (e.map L').language := by
  rw [← words_apply (by rwa [Expr.shape_map]), ← words_apply (by rwa [Expr.shape_map])]
  exact words.apply_map_mono below

/-- Whether an operator of some kind can be reached. -/
def flag (kind : Expr Unit → Prop) : Interpretation Prop where
  apply e := kind e.shape ∨ ∃ value ∈ e.operands, value
  monotone := by
    intro e e' sameShape operands
    rintro (here | ⟨value, member, below⟩)
    · exact .inl (sameShape ▸ here)
    · right
      generalize e.operands = xs at operands member
      generalize e'.operands = ys at operands
      induction operands with
      | nil => simp at member
      | @cons x y xs ys implies _ inductionHypothesis =>
          rcases List.mem_cons.mp member with rfl | member
          · exact ⟨y, by simp, implies below⟩
          · obtain ⟨value, member, holds⟩ := inductionHypothesis member
            exact ⟨value, by simp [member], holds⟩

theorem flag_map {Operand : Type} {kind : Expr Unit → Prop} {values : Operand → Prop}
    {e : Expr Operand} :
    (flag kind).apply (e.map values) ↔ kind e.shape ∨ ∃ operand ∈ e.operands, values operand := by
  change _ ∨ (∃ value ∈ (e.map values).operands, value) ↔ _
  rw [Expr.shape_map, Expr.operands_map]
  simp only [List.mem_map, exists_exists_and_eq_and]

theorem flag_leaf {kind : Expr Unit → Prop} {e : Expr Prop} (leaf : e.operands = []) :
    (flag kind).apply e ↔ kind e.shape := by
  change _ ∨ (∃ value ∈ e.operands, value) ↔ _
  simp [leaf]

end Interpretation

namespace Arena

variable {arena before after : Arena} {id root operand : ExprId} {e : Expr ExprId}
  {lang lang' : Language Char} {kind : Expr Unit → Prop}

theorem mem_operands_iff : operand ∈ arena.operands id ↔
    ∃ o ∈ (arena.get id).operands, arena.resolve o = operand := by
  simp [operands]

theorem throughout_congr (same : arena.resolve root = arena.resolve id) :
    arena.Throughout root kind ↔ arena.Throughout id kind := by
  unfold Throughout Reaches
  rw [same]

theorem reaches_self (arena : Arena) (root : ExprId) : arena.Reaches root (arena.resolve root) :=
  Relation.ReflTransGen.refl

namespace WellFormed

variable (wellFormed : arena.WellFormed)

include wellFormed

@[simp]
theorem operands_resolve (id : ExprId) : arena.operands (arena.resolve id) = arena.operands id := by
  unfold operands
  rw [wellFormed.get_resolve]

/-- The numbers below an expression are resolved. -/
theorem resolve_of_reaches (reaches : arena.Reaches root id) : arena.resolve id = id := by
  rcases Relation.ReflTransGen.cases_tail reaches with same | ⟨x, _, child⟩
  · rw [same, wellFormed.resolve_resolve]
  · obtain ⟨o, _, rfl⟩ := mem_operands_iff.mp child
    exact wellFormed.resolve_resolve o

@[simp]
theorem reaches_resolve : arena.Reaches (arena.resolve root) id ↔ arena.Reaches root id := by
  unfold Reaches
  rw [wellFormed.resolve_resolve]

theorem reaches_trans (reaches : arena.Reaches root id) {n : ExprId} (onward : arena.Reaches id n) :
    arena.Reaches root n :=
  reaches.trans (wellFormed.resolve_of_reaches reaches ▸ onward)

theorem reaches_operand {o : ExprId} (member : o ∈ (arena.get root).operands)
    (reaches : arena.Reaches o id) : arena.Reaches root id := by
  refine .head ?_ reaches
  unfold Child
  rw [wellFormed.operands_resolve, mem_operands_iff]
  exact ⟨o, member, rfl⟩

theorem reaches_cases (reaches : arena.Reaches root id) :
    id = arena.resolve root ∨ ∃ o ∈ (arena.get root).operands, arena.Reaches o id := by
  rcases reaches.cases_head with same | ⟨child, isChild, rest⟩
  · exact .inl same.symm
  · unfold Child at isChild
    rw [wellFormed.operands_resolve, mem_operands_iff] at isChild
    obtain ⟨o, member, rfl⟩ := isChild
    exact .inr ⟨o, member, rest⟩

theorem throughout_iff : arena.Throughout root kind ↔
    kind (arena.get root).shape ∧
      ∀ o ∈ (arena.get root).operands, arena.Throughout o kind := by
  constructor
  · intro throughout
    refine ⟨?_, fun o member id reaches =>
      throughout id (wellFormed.reaches_operand member reaches)⟩
    simpa [wellFormed.get_resolve] using throughout _ (arena.reaches_self root)
  · rintro ⟨here, below⟩ id reaches
    rcases wellFormed.reaches_cases reaches with rfl | ⟨o, member, rest⟩
    · simpa [wellFormed.get_resolve] using here
    · exact below o member id rest

theorem throughout_of_leaf (stands : arena.Stands root e) (leaf : e.operands = [])
    (here : kind e.shape) : arena.Throughout root kind := by
  refine wellFormed.throughout_iff.mpr ?_
  rw [get_of_stands stands, leaf]
  exact ⟨here, nofun⟩

theorem throughout_resolve :
    arena.Throughout (arena.resolve root) kind ↔ arena.Throughout root kind := by
  simp only [Throughout, wellFormed.reaches_resolve]

/-- Operators of one kind fill the graph below an expression if no other one can be reached. -/
theorem least_flag_iff (onNil : kind .nil) :
    (Interpretation.flag fun operator => ¬ kind operator).least arena id ↔
      ¬ arena.Throughout id kind := by
  let other := Interpretation.flag fun operator => ¬ kind operator
  constructor
  · refine other.least_le (fun id => ¬ arena.Throughout id kind) ?_ ?_ id
    · intro id e found reached
      rw [wellFormed.throughout_iff, get_of_stands (stands_of_expr found)]
      rintro ⟨here, below⟩
      rcases Interpretation.flag_map.mp reached with there | ⟨o, member, reached, _⟩
      · exact there here
      · exact reached (below o member)
    · intro id target found reached
      rw [← wellFormed.throughout_resolve, wellFormed.resolve_link found,
        wellFormed.throughout_resolve]
      exact reached.1
  · contrapose!
    intro free x reaches
    -- nothing that can be reached is flagged
    have unflagged : ¬ other.least arena x := by
      induction reaches with
      | refl => rwa [other.least_resolve wellFormed]
      | @tail x y _ isChild inductionHypothesis =>
          intro flagged
          obtain ⟨o, member, rfl⟩ := mem_operands_iff.mp isChild
          rw [other.least_resolve wellFormed] at flagged
          apply inductionHypothesis
          unfold Arena.get at member
          split at member
          · rename_i e found
            rw [other.least_of_stands wellFormed found]
            exact Interpretation.flag_map.mpr (.inr ⟨o, member, flagged⟩)
          · simp [Expr.operands] at member
    unfold Arena.get
    split
    · rename_i e found
      by_contra elsewhere
      rw [other.least_of_stands wellFormed found] at unflagged
      exact unflagged (Interpretation.flag_map.mpr (.inl elsewhere))
    · exact onNil

end WellFormed

end Arena

end Residual
