import Residual.Proofs.Arena.Solutions

/-!
# What a derivation meets

To derive an expression is to derive some of its operands.  These are exposed in it, and what is
exposed in them too: both sides of a union, the first part of a concatenation, the second one if the
first may be empty, and what is complemented or repeated.
-/

set_option autoImplicit false

namespace Residual

open Relation

/-- The operand is derived with the expression.  `empty` tells which operands may be empty. -/
inductive Expr.Exposes {Operand : Type} (empty : Operand → Prop) : Expr Operand → Operand → Prop where
  | left (left right : Operand) : Exposes empty (.alt left right) left
  | right (left right : Operand) : Exposes empty (.alt left right) right
  | first (first second : Operand) : Exposes empty (.cat first second) first
  | second {first : Operand} (second : Operand) : empty first →
      Exposes empty (.cat first second) second
  | not (lang : Operand) : Exposes empty (.not lang) lang
  | opt (lang : Operand) : Exposes empty (.opt lang) lang
  | plus (lang : Operand) : Exposes empty (.plus lang) lang
  | star (lang : Operand) : Exposes empty (.star lang) lang
  | rep (lang : Operand) (times : Nat) : Exposes empty (.rep lang (.finite (times + 1))) lang

namespace Expr.Exposes

variable {Operand : Type} {empty empty' : Operand → Prop} {e : Expr Operand} {operand : Operand}

theorem mem_operands (exposes : e.Exposes empty operand) : operand ∈ e.operands := by
  cases exposes <;> simp [Expr.operands]

theorem mono (exposes : e.Exposes empty operand)
    (more : ∀ o ∈ e.operands, empty o → empty' o) : e.Exposes empty' operand := by
  cases exposes with
  | second _ isEmpty => exact .second _ (more _ (by simp [Expr.operands]) isEmpty)
  | left | right | first | not | opt | plus | star | rep => constructor

/-- Related expressions expose related operands. -/
theorem of_related {Other : Type} {R : Operand → Other → Prop} {e' : Expr Other}
    {empty' : Other → Prop} (exposes : e.Exposes empty operand) (related : e.Related R e')
    (same : ∀ x x', R x x' → empty x → empty' x') :
    ∃ operand', e'.Exposes empty' operand' ∧ R operand operand' := by
  cases exposes with
  | left =>
      cases related with
      | alt left _ => exact ⟨_, .left _ _, left⟩
  | right =>
      cases related with
      | alt _ right => exact ⟨_, .right _ _, right⟩
  | first =>
      cases related with
      | cat first _ => exact ⟨_, .first _ _, first⟩
  | second _ isEmpty =>
      cases related with
      | cat first second => exact ⟨_, .second _ (same _ _ first isEmpty), second⟩
  | not | opt | plus | star | rep =>
      cases related
      exact ⟨_, by constructor, by assumption⟩

end Expr.Exposes

namespace Arena

variable {arena : Arena} {root id o x y : ExprId} {empty empty' : ExprId → Prop}

/-- Nothing that is derived with the root is an infinite repetition. -/
def Bounded (arena : Arena) (empty : ExprId → Prop) (root : ExprId) : Prop :=
  ∀ id lang, ReflTransGen (fun id o => (arena.get id).Exposes empty o) root id →
    arena.get id ≠ .rep lang .infinite

theorem bounded_iff : arena.Bounded empty root ↔ (∀ lang, arena.get root ≠ .rep lang .infinite) ∧
    ∀ o, (arena.get root).Exposes empty o → arena.Bounded empty o := by
  constructor
  · intro bounded
    exact ⟨fun lang => bounded root lang .refl,
      fun o exposes id lang exposed => bounded id lang (.head exposes exposed)⟩
  · rintro ⟨here, below⟩ id lang exposed
    rcases exposed.cases_head with rfl | ⟨o, exposes, exposed⟩
    · exact here lang
    · exact below o exposes id lang exposed

theorem Bounded.of_get (same : arena.get x = arena.get y) (bounded : arena.Bounded empty x) :
    arena.Bounded empty y := by
  rw [bounded_iff] at bounded ⊢
  rwa [← same]

theorem bounded_of_leaf (leaf : (arena.get root).operands = []) : arena.Bounded empty root := by
  refine bounded_iff.mpr ⟨fun lang isRep => ?_, fun o exposes => ?_⟩
  · simp [isRep, Expr.operands] at leaf
  · have member := exposes.mem_operands
    simp [leaf] at member

/-- Fewer expressions that may be empty expose less. -/
theorem Bounded.anti {kind : ExprId → Prop} (bounded : arena.Bounded empty root)
    (here : kind root) (below : ∀ id, kind id → ∀ o ∈ (arena.get id).operands, kind o)
    (fewer : ∀ id, kind id → empty' id → empty id) : arena.Bounded empty' root := by
  suffices exposed : ∀ {id}, ReflTransGen (fun id o => (arena.get id).Exposes empty' o) root id →
      kind id ∧ ReflTransGen (fun id o => (arena.get id).Exposes empty o) root id from
    fun id lang reached => bounded id lang (exposed reached).2
  intro id reached
  induction reached with
  | refl => exact ⟨here, .refl⟩
  | @tail id o _ exposes inductionHypothesis =>
      obtain ⟨isKind, exposed⟩ := inductionHypothesis
      exact ⟨below _ isKind o exposes.mem_operands, exposed.tail
        (exposes.mono fun o member isEmpty => fewer o (below _ isKind o member) isEmpty)⟩

theorem WellFormed.bounded_of_counted (wellFormed : arena.WellFormed)
    (counted : arena.Counted root) : arena.Bounded empty root := by
  intro id lang exposed
  have isCounted : arena.Counted id := by
    induction exposed with
    | refl => exact counted
    | tail _ exposes inductionHypothesis =>
        exact (wellFormed.throughout_iff.mp inductionHypothesis).2 _ exposes.mem_operands
  intro isRep
  have := (wellFormed.throughout_iff.mp isCounted).1
  rw [isRep] at this
  exact this.2 rfl

/-! ## Exposed expressions -/

/-- The language of the expression has the empty string. -/
def ContainsEmpty (arena : Arena) (id : ExprId) : Prop :=
  ∃ lang, arena.Speaks id lang ∧ [] ∈ lang

/-- Some infinite repetition is exposed in the root.  The root itself is exposed, and so are the
operands that are derived with an exposed expression. -/
def ExposesUnbounded (arena : Arena) (root : ExprId) : Prop :=
  ∃ id lang, ReflTransGen (fun id o => (arena.get id).Exposes arena.ContainsEmpty o) root id ∧
    arena.get id = .rep lang .infinite

theorem not_exposesUnbounded_iff :
    ¬ arena.ExposesUnbounded root ↔ arena.Bounded arena.ContainsEmpty root := by
  unfold ExposesUnbounded Bounded
  push Not
  rfl

end Arena

end Residual
