import Mathlib.Data.List.Forall2
import Residual.Expr

/-!
# Expressions with related operands

`Related` lifts a relation of operands to expressions with the same operator.
-/

set_option autoImplicit false

namespace Residual.Expr

variable {A B C : Type} {R R' : A → B → Prop} {e : Expr A} {e' : Expr B}

/-- The same operator on operands that are related one by one. -/
inductive Related (R : A → B → Prop) : Expr A → Expr B → Prop where
  | any : Related R any any
  | empty : Related R empty empty
  | nil : Related R nil nil
  | char (c : Char) : Related R (char c) (char c)
  | range (low high : Char) : Related R (range low high) (range low high)
  | token (text : String) : Related R (token text) (token text)
  | alt {x y : A} {x' y' : B} : R x x' → R y y' → Related R (alt x y) (alt x' y')
  | cat {x y : A} {x' y' : B} : R x x' → R y y' → Related R (cat x y) (cat x' y')
  | not {x : A} {x' : B} : R x x' → Related R (not x) (not x')
  | opt {x : A} {x' : B} : R x x' → Related R (opt x) (opt x')
  | plus {x : A} {x' : B} : R x x' → Related R (plus x) (plus x')
  | star {x : A} {x' : B} : R x x' → Related R (star x) (star x')
  | rep {x : A} {x' : B} (count : Count) : R x x' → Related R (rep x count) (rep x' count)

namespace Related

theorem shape_eq (related : Related R e e') : e.shape = e'.shape := by
  cases related <;> rfl

theorem operands (related : Related R e e') : List.Forall₂ R e.operands e'.operands := by
  cases related <;> simp_all [Expr.operands]

theorem symm (related : Related R e e') : Related (fun x' x => R x x') e' e := by
  cases related <;> constructor <;> assumption

theorem imp (related : Related R e e') (implies : ∀ x x', R x x' → R' x x') : Related R' e e' := by
  cases related <;> constructor <;> exact implies _ _ ‹_›

theorem imp_of_mem (related : Related R e e')
    (implies : ∀ x ∈ e.operands, ∀ x', R x x' → R' x x') : Related R' e e' := by
  cases related <;> constructor <;> refine implies _ ?_ _ ‹_› <;> simp [Expr.operands]

theorem map_left {f : C → A} {e : Expr C} :
    Related R (e.map f) e' ↔ Related (fun x x' => R (f x) x') e e' := by
  constructor <;> intro related
  · cases e <;> cases related <;> constructor <;> assumption
  · cases related <;> constructor <;> assumption

theorem map_right {f : C → B} {e' : Expr C} :
    Related R e (e'.map f) ↔ Related (fun x x' => R x (f x')) e e' := by
  constructor <;> intro related
  · cases e' <;> cases related <;> constructor <;> assumption
  · cases related <;> constructor <;> assumption

theorem map_self {f : A → B} (each : ∀ x ∈ e.operands, R x (f x)) : Related R e (e.map f) := by
  cases e <;> constructor <;> apply each <;> simp [Expr.operands]

theorem refl_of_mem {R : A → A → Prop} (each : ∀ x ∈ e.operands, R x x) : Related R e e := by
  cases e <;> constructor <;> apply each <;> simp [Expr.operands]

/-- What the first operands are mapped to is related to the second ones. -/
theorem map_of_mem {R : A → B → Prop} {R' : B → C → Prop} {e : Expr A} {e' : Expr B} {f : A → C}
    (related : Related R e e') (each : ∀ x ∈ e.operands, ∀ x', R x x' → R' x' (f x)) :
    Related R' e' (e.map f) := by
  cases related <;> constructor <;> refine each _ ?_ _ ‹_› <;> simp [Expr.operands]

theorem leaf {R : A → A → Prop} (leaf : e.operands = []) : Related R e e :=
  refl_of_mem (by simp [leaf])

theorem exists_right (related : Related R e e') {x : A} (member : x ∈ e.operands) :
    ∃ x' ∈ e'.operands, R x x' := by
  cases related <;> simp_all [Expr.operands] <;> grind

theorem eq_map {f : A → B} (related : Related (fun x x' => x' = f x) e e') : e' = e.map f := by
  cases related <;> simp_all [map]

end Related

@[simp]
theorem isAtomic_map (f : A → B) (e : Expr A) : (e.map f).isAtomic = e.isAtomic := by
  cases e <;> rfl

theorem map_id (e : Expr A) : e.map id = e := by
  cases e <;> rfl

theorem map_map (f : A → B) (g : B → C) (e : Expr A) : (e.map f).map g = e.map fun x => g (f x) := by
  cases e <;> rfl

theorem map_congr {f g : A → B} (same : ∀ x ∈ e.operands, f x = g x) : e.map f = e.map g := by
  cases e <;> simp_all [operands, map]

/-- Expressions are the same if they have the same operator on the same operands. -/
theorem map_eq_map_iff {f : A → C} {g : B → C} : e.map f = e'.map g ↔
    e.shape = e'.shape ∧ List.Forall₂ (fun x x' => f x = g x') e.operands e'.operands := by
  rw [← List.forall₂_map_left_iff (f := f) (R := fun y x' => y = g x'),
    ← List.forall₂_map_right_iff (f := g) (R := fun y y' => y = y'), List.forall₂_eq_eq_eq,
    ← operands_map, ← operands_map, ← shape_map f e, ← shape_map g e']
  exact ⟨fun same => same ▸ ⟨rfl, rfl⟩, fun ⟨sameShape, sameOperands⟩ =>
    ext_of_shape sameShape sameOperands⟩

end Residual.Expr
