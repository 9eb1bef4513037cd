import Residual.Proofs.Arena.History
import Residual.Proofs.Arena.Solutions

/-!
# The rules of simplification

`Simplifies` lists the rules by which an expression with simplified operands is replaced, as they
are seen in one arena.  A rule looks at operands that stand for an expression in that arena; an
unbound link is opaque.

Each rule keeps what the expression means, in the arena and in every later one.  That links are
bound only later is dealt with by `Simplifies.le`: the rules do not lead above what the operator
makes of values of the operands, for every interpretation that obeys the laws of `Reduces`.
-/

set_option autoImplicit false

namespace Residual

open Computability Interpretation

namespace Arena

/-- The expression, whose operands are simplified forms of those of `id`, is simplified to a
number. -/
inductive Simplifies (senses : Sense → Prop) (arena : Arena) (id : ExprId) :
    Expr ExprId → ExprId → Prop where
  | keep {e : Expr ExprId} {value : ExprId} :
      arena.slot? value = some (.expr e) → IsCounted e.shape →
      Simplifies senses arena id e value
  | unchanged {e : Expr ExprId} :
      arena.slot? id = some (.expr e) → IsCounted e.shape →
      Simplifies senses arena id (e.map arena.resolve) id
  | same {left right : ExprId} : arena.Alike senses left right →
      Simplifies senses arena id (.alt left right) left
  | altNil {left right : ExprId} : arena.Stands right .nil →
      Simplifies senses arena id (.alt left right) left
  | nilAlt {left right : ExprId} : arena.Stands left .nil →
      Simplifies senses arena id (.alt left right) right
  | swap {left right value : ExprId} : Simplifies senses arena id (.alt right left) value →
      Simplifies senses arena id (.alt left right) value
  | regroup {left right inner rest tail value : ExprId} :
      arena.Stands left (.alt inner rest) → arena.slot? tail = some (.expr (.alt rest right)) →
      Simplifies senses arena id (.alt (arena.resolve inner) tail) value →
      Simplifies senses arena id (.alt left right) value
  | nilCat {first second : ExprId} : arena.Stands first .nil →
      Simplifies senses arena id (.cat first second) first
  | catNil {first second : ExprId} : arena.Stands second .nil →
      Simplifies senses arena id (.cat first second) second
  | emptyCat {first second : ExprId} : arena.Stands first .empty →
      Simplifies senses arena id (.cat first second) second
  | catEmpty {first second : ExprId} : arena.Stands second .empty →
      Simplifies senses arena id (.cat first second) first
  | notNot {lang inner : ExprId} : arena.Stands lang (.not inner) →
      Simplifies senses arena id (.not lang) (arena.resolve inner)
  | optTrivial {lang : ExprId} : arena.Stands lang .nil ∨ arena.Stands lang .empty →
      Simplifies senses arena id (.opt lang) .empty
  | plusTrivial {lang : ExprId} : arena.Stands lang .nil ∨ arena.Stands lang .empty →
      Simplifies senses arena id (.plus lang) lang
  | starTrivial {lang : ExprId} : arena.Stands lang .nil ∨ arena.Stands lang .empty →
      Simplifies senses arena id (.star lang) .empty
  | starStar {lang inner : ExprId} : arena.Stands lang (.star inner) →
      Simplifies senses arena id (.star lang) lang
  | single {c : Char} {value : ExprId} : arena.slot? value = some (.expr (.char c)) →
      Simplifies senses arena id (.range c c) value
  | never {lang : ExprId} : Simplifies senses arena id (.rep lang (.finite 0)) .empty
  | once {lang : ExprId} : Simplifies senses arena id (.rep lang (.finite 1)) lang
  | always {lang value : ExprId} : arena.slot? value = some (.expr (.star lang)) →
      Simplifies senses arena id (.rep lang .infinite) value

end Arena

namespace Arena.Simplifies

variable {senses : Sense → Prop} {arena later base : Arena} {id value : ExprId} {e : Expr ExprId}

/-- A rule that relies on fewer senses. -/
theorem mono {senses' : Sense → Prop} (fewer : ∀ sense, senses' sense → senses sense)
    (simplifies : arena.Simplifies senses id e value) : arena.Simplifies senses' id e value := by
  induction simplifies with
  | same alike =>
      exact .same fun later growing wellFormed sense trusted =>
        alike later growing wellFormed sense (fewer sense trusted)
  | swap _ inductionHypothesis => exact .swap inductionHypothesis
  | regroup stands found _ inductionHypothesis => exact .regroup stands found inductionHypothesis
  | keep found counted => exact .keep found counted
  | unchanged found counted => exact .unchanged found counted
  | altNil stands => exact .altNil stands
  | nilAlt stands => exact .nilAlt stands
  | nilCat stands => exact .nilCat stands
  | catNil stands => exact .catNil stands
  | emptyCat stands => exact .emptyCat stands
  | catEmpty stands => exact .catEmpty stands
  | notNot stands => exact .notNot stands
  | optTrivial stands => exact .optTrivial stands
  | plusTrivial stands => exact .plusTrivial stands
  | starTrivial stands => exact .starTrivial stands
  | starStar stands => exact .starStar stands
  | single found => exact .single found
  | never => exact .never
  | once => exact .once
  | always found => exact .always found

/-- The rules keep what an expression means. -/
theorem means {sense : Sense} {E : Expr (Language Char)}
    (simplifies : arena.Simplifies senses id e value) (wellFormed : arena.WellFormed)
    (wellFormed' : later.WellFormed) (growing : arena.Grows later) (trusted : senses sense)
    (noComplement : sense = .least → e.shape ≠ .not ())
    (related : e.Related (later.Means sense) E) : later.Means sense value E.language := by
  have persists : ∀ {id e}, arena.Stands id e → later.Stands id e :=
    fun stands => growing.stands wellFormed wellFormed' stands
  have stands_of_slot : ∀ {id e}, arena.slot? id = some (.expr e) → later.Stands id e :=
    fun found => stands_of_expr (growing.expr found)
  have means_resolve : ∀ {id lang}, later.Means sense id lang →
      later.Means sense (arena.resolve id) lang := fun means =>
    wellFormed'.means_of_resolve_eq (growing.resolve_resolve wellFormed wellFormed' _) means
  have means_nil : ∀ {id lang}, arena.Stands id .nil → later.Means sense id lang → lang = 0 := by
    intro id lang stands means
    obtain ⟨_, E, related, rfl⟩ := wellFormed'.exists_related (persists stands) means
    cases related
    rfl
  have means_empty : ∀ {id lang}, arena.Stands id .empty → later.Means sense id lang →
      lang = 1 := by
    intro id lang stands means
    obtain ⟨_, E, related, rfl⟩ := wellFormed'.exists_related (persists stands) means
    cases related
    rfl
  have empty_means := wellFormed'.means_empty sense
  induction simplifies generalizing E with
  | keep found _ =>
      exact wellFormed'.means_of_related (stands_of_slot found) noComplement related
  | @unchanged e found _ =>
      rw [Expr.shape_map] at noComplement
      refine wellFormed'.means_of_related (stands_of_slot found) noComplement ?_
      refine (Expr.Related.map_left.mp related).imp fun o lang means => ?_
      exact wellFormed'.means_of_resolve_eq
        (growing.resolve_resolve wellFormed wellFormed' o).symm means
  | same alike =>
      cases related with
      | @alt _ _ L M left right =>
          obtain rfl := wellFormed'.means_unique
            ((alike later growing wellFormed' sense trusted L).mp left) right
          change later.Means sense _ (L + L)
          rwa [add_idem]
  | altNil stands =>
      cases related with
      | @alt _ _ L M left right =>
          obtain rfl := means_nil stands right
          change later.Means sense _ (L + 0)
          rwa [add_zero]
  | nilAlt stands =>
      cases related with
      | @alt _ _ L M left right =>
          obtain rfl := means_nil stands left
          change later.Means sense _ (0 + M)
          rwa [zero_add]
  | swap _ inductionHypothesis =>
      cases related with
      | @alt _ _ L M left right =>
          have means := inductionHypothesis (by simp [Expr.shape, Expr.map]) (.alt right left)
          change later.Means sense _ (L + M)
          rw [add_comm]
          exact means
  | regroup stands found _ inductionHypothesis =>
      cases related with
      | @alt _ _ L M left right =>
          obtain ⟨_, _, related, rfl⟩ := wellFormed'.exists_related (persists stands) left
          cases related with
          | @alt _ _ inner rest isInner isRest =>
              have isTail := wellFormed'.means_of_related (stands_of_slot found)
                (by simp [Expr.shape, Expr.map]) (.alt isRest right)
              have means := inductionHypothesis (by simp [Expr.shape, Expr.map])
                (.alt (means_resolve isInner) isTail)
              change later.Means sense _ (inner + rest + M)
              rw [add_assoc]
              exact means
  | nilCat stands =>
      cases related with
      | @cat _ _ L M first second =>
          obtain rfl := means_nil stands first
          change later.Means sense _ (0 * M)
          rwa [zero_mul]
  | catNil stands =>
      cases related with
      | @cat _ _ L M first second =>
          obtain rfl := means_nil stands second
          change later.Means sense _ (L * 0)
          rwa [mul_zero]
  | emptyCat stands =>
      cases related with
      | @cat _ _ L M first second =>
          obtain rfl := means_empty stands first
          change later.Means sense _ (1 * M)
          rwa [one_mul]
  | catEmpty stands =>
      cases related with
      | @cat _ _ L M first second =>
          obtain rfl := means_empty stands second
          change later.Means sense _ (L * 1)
          rwa [mul_one]
  | notNot stands =>
      cases related with
      | @not _ L isLang =>
          obtain ⟨_, _, related, rfl⟩ := wellFormed'.exists_related (persists stands) isLang
          cases related with
          | @not _ inner isInner =>
              change later.Means sense _ innerᶜᶜ
              rw [compl_compl]
              exact means_resolve isInner
  | optTrivial stands =>
      cases related with
      | @opt _ L isLang =>
          change later.Means sense _ (L + 1)
          rcases stands with stands | stands
          · rwa [means_nil stands isLang, zero_add]
          · rwa [means_empty stands isLang, add_idem]
  | plusTrivial stands =>
      cases related with
      | @plus _ L isLang =>
          change later.Means sense _ (L * L∗)
          rcases stands with stands | stands
          · obtain rfl := means_nil stands isLang
            rwa [zero_mul]
          · obtain rfl := means_empty stands isLang
            rwa [kstar_one, one_mul]
  | starTrivial stands =>
      cases related with
      | @star _ L isLang =>
          change later.Means sense _ L∗
          rcases stands with stands | stands
          · rwa [means_nil stands isLang, kstar_zero]
          · rwa [means_empty stands isLang, kstar_one]
  | starStar stands =>
      cases related with
      | @star _ L isLang =>
          obtain ⟨_, _, related, rfl⟩ := wellFormed'.exists_related (persists stands) isLang
          cases related with
          | @star _ inner isInner =>
              change later.Means sense _ (inner∗)∗
              rw [kstar_idem]
              exact isLang
  | single found =>
      cases related
      rw [Expr.language_range_self]
      exact wellFormed'.means_of_related (stands_of_slot found) (by simp [Expr.shape, Expr.map])
        (.char _)
  | never =>
      cases related with
      | @rep _ L count isLang =>
          change later.Means sense _ (L ^ 0)
          rwa [pow_zero]
  | once =>
      cases related with
      | @rep _ L count isLang =>
          change later.Means sense _ (L ^ 1)
          rwa [pow_one]
  | always found =>
      cases related with
      | @rep _ L count isLang =>
          have means := wellFormed'.means_of_related (stands_of_slot found)
            (by simp [Expr.shape, Expr.map]) (.star isLang)
          exact means

end Arena.Simplifies

/-! ## Values that the rules do not lead above -/

namespace Interpretation

variable {Meaning : Type} [CompleteLattice Meaning]

/-- Laws by which no rule leads from an expression to one with a greater value, if the first one is
valued by the second interpretation and the other one by the first. -/
structure Reduces (inner outer : Interpretation Meaning) : Prop where
  keep : ∀ {e : Expr Meaning}, Arena.IsCounted e.shape → inner.apply e ≤ outer.apply e
  nil : inner.apply .nil = ⊥
  alt : ∀ x y, inner.apply (.alt x y) = x ⊔ y
  alt_outer : ∀ x y, outer.apply (.alt x y) = x ⊔ y
  emptyCat : ∀ {x} y, inner.apply .empty ≤ x → y ≤ outer.apply (.cat x y)
  catEmpty : ∀ x {y}, inner.apply .empty ≤ y → x ≤ outer.apply (.cat x y)
  notNot : ∀ {x y}, inner.apply (.not x) ≤ y → x ≤ outer.apply (.not y)
  opt : ∀ x, inner.apply .empty ≤ outer.apply (.opt x)
  plus : ∀ x, x ≤ outer.apply (.plus x)
  empty_star : ∀ x, inner.apply .empty ≤ outer.apply (.star x)
  star : ∀ x, x ≤ outer.apply (.star x)
  single : ∀ c, inner.apply (.char c) ≤ outer.apply (.range c c)
  never : ∀ x, inner.apply .empty ≤ outer.apply (.rep x (.finite 0))
  once : ∀ x, x ≤ outer.apply (.rep x (.finite 1))
  always : ∀ x, inner.apply (.star x) ≤ outer.apply (.rep x .infinite)

/-- Strings of expressions, where a complement may have any string before it is simplified. -/
theorem words_reduces : words.Reduces (wordsWith ⊤) where
  keep {e} _ := by
    cases e with
    | not _ => exact bot_le
    | _ => exact le_rfl
  nil := rfl
  alt _ _ := rfl
  alt_outer _ _ := rfl
  emptyCat y containsEmpty := (one_mul y).ge.trans (mul_le_mul_left containsEmpty y)
  catEmpty x _ containsEmpty := (mul_one x).ge.trans (mul_le_mul_right containsEmpty x)
  notNot _ := le_top
  opt x := le_sup_right
  plus x := (mul_one x).ge.trans (mul_le_mul_right one_le_kstar x)
  empty_star _ := one_le_kstar
  star _ := le_kstar
  single c := (Expr.language_range_self c).ge
  never x := (pow_zero x).ge
  once x := (pow_one x).ge
  always _ := le_rfl

theorem flag_alt {kind : Expr Unit → Prop} (absent : ¬ kind (.alt () ())) (x y : Prop) :
    (flag kind).apply (.alt x y) = (x ⊔ y) := by
  refine propext ⟨?_, ?_⟩
  · rintro (here | ⟨value, member, holds⟩)
    · exact absurd here absent
    · simp only [Expr.operands, List.mem_cons, List.not_mem_nil, or_false] at member
      rcases member with rfl | rfl
      · exact .inl holds
      · exact .inr holds
  · rintro (holds | holds)
    · exact .inr ⟨x, by simp [Expr.operands], holds⟩
    · exact .inr ⟨y, by simp [Expr.operands], holds⟩

/-- Operators that can be reached, where only complements stay: the rules make no operator of
another kind, and they remove the repetitions that are not counted. -/
theorem flag_reduces {kind kind' : Expr Unit → Prop}
    (stays : ∀ operator, kind operator → Arena.IsCounted operator → kind' operator)
    (onlyNot : ∀ operator, kind' operator → operator = .not ()) :
    (flag kind).Reduces (flag kind') := by
  have absent : ∀ operator, Arena.IsCounted operator → operator ≠ .not () → ¬ kind operator :=
    fun _ counted distinct here => distinct (onlyNot _ (stays _ here counted))
  have absent_outer : ∀ {operator}, operator ≠ .not () → ¬ kind' operator :=
    fun distinct here => distinct (onlyNot _ here)
  have absent_empty : ¬ (flag kind).apply .empty := by
    rw [flag_leaf rfl]
    exact absent .empty ⟨nofun, nofun⟩ nofun
  refine
    { keep := fun counted => Or.imp_left fun here => stays _ here counted
      nil := ?_
      alt := flag_alt (absent _ ⟨nofun, nofun⟩ nofun)
      alt_outer := flag_alt (absent_outer nofun)
      emptyCat := fun y _ holds => .inr ⟨y, by simp [Expr.operands], holds⟩
      catEmpty := fun x _ _ holds => .inr ⟨x, by simp [Expr.operands], holds⟩
      notNot := fun {x y} implies holds =>
        .inr ⟨y, by simp [Expr.operands], implies (.inr ⟨x, by simp [Expr.operands], holds⟩)⟩
      opt := fun x holds => absurd holds absent_empty
      plus := fun x holds => .inr ⟨x, by simp [Expr.operands], holds⟩
      empty_star := fun x holds => absurd holds absent_empty
      star := fun x holds => .inr ⟨x, by simp [Expr.operands], holds⟩
      single := ?_
      never := fun x holds => absurd holds absent_empty
      once := fun x holds => .inr ⟨x, by simp [Expr.operands], holds⟩
      always := ?_ }
  · refine eq_false ?_
    rw [flag_leaf rfl]
    exact absent .nil ⟨nofun, nofun⟩ nofun
  · intro c holds
    rw [flag_leaf rfl] at holds
    exact absurd holds (absent (.char c) ⟨nofun, nofun⟩ nofun)
  · rintro x (here | operand)
    · exact absurd here (absent (.star ()) ⟨nofun, nofun⟩ nofun)
    · exact .inr operand

end Interpretation

namespace Arena.Simplifies

variable {Meaning : Type} [CompleteLattice Meaning] {inner outer : Interpretation Meaning}
  {senses : Sense → Prop} {base arena later : Arena} {id value : ExprId} {e : Expr ExprId}
  {values : ExprId → Meaning}

/-- No rule leads above the values of the operands. -/
theorem le (reduces : inner.Reduces outer) (simplifies : arena.Simplifies senses id e value)
    (wellFormed : arena.WellFormed) (wellFormed' : later.WellFormed) (growing : arena.Grows later)
    (fromBase : base.Extends arena) (base_wellFormed : base.WellFormed)
    (inside : id.number < base.size) (tame : inner.Tame base arena later values) :
    values value ≤ outer.apply (e.map values) := by
  have value_of_slot : ∀ {id e}, arena.slot? id = some (.expr e) →
      values id = inner.apply (e.map values) := fun found => tame.expr (growing.expr found)
  have value_of_stands : ∀ {id e}, arena.Stands id e → inner.apply (e.map values) ≤ values id :=
    fun stands => (value_of_slot stands).ge.trans (tame.resolve_le _)
  have nothing : ∀ {id}, arena.Stands id .nil → values id = ⊥ := by
    intro id stands
    refine le_bot_iff.mp ((tame.le_least id).trans ?_)
    rw [inner.least_of_stands wellFormed' (growing.stands wellFormed wellFormed' stands)]
    exact reduces.nil.le
  have value_empty : values .empty = inner.apply .empty := value_of_slot wellFormed.empty
  induction simplifies with
  | keep found counted =>
      rw [value_of_slot found]
      exact reduces.keep (by rwa [Expr.shape_map])
  | @unchanged e found counted =>
      have wasThere : base.slot? id = some (.expr e) := by rwa [← fromBase id inside]
      have sameValues : e.map values = (e.map arena.resolve).map values := by
        refine Expr.ext_of_shape (by simp) ?_
        simp only [Expr.operands_map, List.map_map, List.map_inj_left, Function.comp_apply]
        exact fun o member => (tame.resolve_eq (base_wellFormed.operand_lt wasThere o member)).symm
      rw [value_of_slot found, sameValues]
      exact reduces.keep (by rwa [Expr.shape_map, Expr.shape_map])
  | same _ | altNil _ => exact le_sup_left.trans (reduces.alt_outer _ _).ge
  | nilAlt _ => exact le_sup_right.trans (reduces.alt_outer _ _).ge
  | swap _ inductionHypothesis =>
      refine inductionHypothesis.trans ?_
      change outer.apply (.alt _ _) ≤ outer.apply (.alt _ _)
      rw [reduces.alt_outer, reduces.alt_outer, sup_comm]
  | @regroup left right innerId rest tail value stands found _ inductionHypothesis =>
      refine inductionHypothesis.trans ?_
      change outer.apply (.alt _ _) ≤ outer.apply (.alt _ _)
      have leftValue : values innerId ⊔ values rest ≤ values left :=
        (reduces.alt _ _).ge.trans (value_of_stands stands)
      have tailValue : values tail = values rest ⊔ values right :=
        (value_of_slot found).trans (reduces.alt _ _)
      rw [reduces.alt_outer, reduces.alt_outer, tailValue, ← sup_assoc]
      exact sup_le_sup_right ((sup_le_sup_right (tame.resolve_le innerId) _).trans leftValue) _
  | nilCat stands | catNil stands =>
      rw [nothing stands]
      exact bot_le
  | emptyCat stands => exact reduces.emptyCat _ (value_of_stands stands)
  | catEmpty stands => exact reduces.catEmpty _ (value_of_stands stands)
  | notNot stands => exact (tame.resolve_le _).trans (reduces.notNot (value_of_stands stands))
  | optTrivial _ => exact value_empty.le.trans (reduces.opt _)
  | plusTrivial _ => exact reduces.plus _
  | starTrivial _ => exact value_empty.le.trans (reduces.empty_star _)
  | starStar _ => exact reduces.star _
  | single found => exact (value_of_slot found).le.trans (reduces.single _)
  | never => exact value_empty.le.trans (reduces.never _)
  | once => exact reduces.once _
  | always found => exact (value_of_slot found).le.trans (reduces.always _)

end Arena.Simplifies

end Residual
