import Residual.Proofs.Arena.Solutions

/-!
# Bisimilar expressions

Two numbers are bisimilar if some bisimulation relates what they stand for.  Bisimilarity is an
equivalence and a bisimulation itself, it relates all unrollings of a rule to each other, and
bisimilar expressions have the same language.
-/

set_option autoImplicit false

namespace Residual.Arena

variable {arena : Arena} {x y z id id' : ExprId} {Related Related' : ExprId → ExprId → Prop}

/-- The two numbers are slots of the same operator, and their operands stand for numbers that are
related one by one. -/
def Corresponds (arena : Arena) (Related : ExprId → ExprId → Prop) (x y : ExprId) : Prop :=
  ∃ e e', arena.slot? x = some (.expr e) ∧ arena.slot? y = some (.expr e') ∧ e.shape = e'.shape ∧
    List.Forall₂ (fun o o' => Related (arena.resolve o) (arena.resolve o')) e.operands e'.operands

/-- Some bisimulation relates what the two numbers stand for. -/
def Bisimilar (arena : Arena) (x y : ExprId) : Prop :=
  ∃ Related, arena.IsBisimulation Related ∧ Related (arena.resolve x) (arena.resolve y)

/-- The graph below the first number covers the one below the second: it is mapped to it so that
every number keeps its operator and the order of its operands. -/
def Unrolls (arena : Arena) (x y : ExprId) : Prop :=
  ∃ cover : ExprId → ExprId, cover (arena.resolve x) = arena.resolve y ∧
    ∀ z, arena.Reaches x z → z = cover z ∨
      arena.Corresponds (fun o o' => cover o = o') z (cover z)

namespace Corresponds

theorem mono (corresponds : arena.Corresponds Related x y)
    (implies : ∀ x y, Related x y → Related' x y) : arena.Corresponds Related' x y := by
  obtain ⟨e, e', found, found', sameShape, operands⟩ := corresponds
  exact ⟨e, e', found, found', sameShape, operands.imp fun _ _ => implies _ _⟩

/-- The operands that are related are children of the two numbers. -/
theorem with_child (corresponds : arena.Corresponds Related x y) :
    arena.Corresponds (fun o o' => arena.Child x o ∧ arena.Child y o' ∧ Related o o') x y := by
  obtain ⟨e, e', found, found', sameShape, operands⟩ := corresponds
  refine ⟨e, e', found, found', sameShape, (forall₂_mem operands).imp ?_⟩
  rintro o o' ⟨member, member', related⟩
  rw [← get_of_stands (stands_of_expr found)] at member
  rw [← get_of_stands (stands_of_expr found')] at member'
  exact ⟨mem_operands_iff.mpr ⟨o, member, rfl⟩, mem_operands_iff.mpr ⟨o', member', rfl⟩, related⟩

theorem comp (first : arena.Corresponds Related x y) (second : arena.Corresponds Related' y z) :
    arena.Corresponds (fun o o' => ∃ between, Related o between ∧ Related' between o') x z := by
  obtain ⟨e, e₁, found, found₁, sameShape, operands⟩ := first
  obtain ⟨e₂, e', found₂, found', sameShape', operands'⟩ := second
  rw [found₁] at found₂
  cases found₂
  refine ⟨e, e', found, found', sameShape.trans sameShape', ?_⟩
  generalize e.operands = os, e₁.operands = os₁, e'.operands = os' at operands operands'
  induction operands generalizing os' with
  | nil =>
      cases operands'
      exact .nil
  | cons here _ inductionHypothesis =>
      cases operands' with
      | cons here' rest' => exact .cons ⟨_, here, here'⟩ (inductionHypothesis _ rest')

end Corresponds

theorem IsBisimulation.intro
    (each : ∀ x y, Related x y → x = y ∨ arena.Corresponds Related x y) :
    arena.IsBisimulation Related :=
  each

theorem IsBisimulation.cases (bisimulation : arena.IsBisimulation Related) (related : Related x y) :
    x = y ∨ arena.Corresponds Related x y :=
  bisimulation x y related

protected theorem Unrolls.refl (arena : Arena) (x : ExprId) : arena.Unrolls x x :=
  ⟨id, rfl, fun _ _ => .inl rfl⟩

namespace Bisimilar

protected theorem refl (arena : Arena) (x : ExprId) : arena.Bisimilar x x :=
  ⟨Eq, fun _ _ => .inl, rfl⟩

theorem symm (bisimilar : arena.Bisimilar x y) : arena.Bisimilar y x := by
  obtain ⟨Related, bisimulation, related⟩ := bisimilar
  exact ⟨_, bisimulation.flip, related⟩

theorem trans (first : arena.Bisimilar x y) (second : arena.Bisimilar y z) :
    arena.Bisimilar x z := by
  obtain ⟨First, bisimulation, related⟩ := first
  obtain ⟨Second, bisimulation', related'⟩ := second
  -- a step by way of a third number may also be a step of one of the two relations alone
  refine ⟨fun x z => First x z ∨ Second x z ∨ ∃ y, First x y ∧ Second y z, .intro ?_,
    .inr (.inr ⟨_, related, related'⟩)⟩
  rintro x z (related | related | ⟨y, related, related'⟩)
  · exact (bisimulation.cases related).imp_right (·.mono fun _ _ => .inl)
  · exact (bisimulation'.cases related).imp_right (·.mono fun _ _ related => .inr (.inl related))
  · rcases bisimulation.cases related with rfl | first
    · exact (bisimulation'.cases related').imp_right
        (·.mono fun _ _ related => .inr (.inl related))
    · rcases bisimulation'.cases related' with rfl | second
      · exact .inr (first.mono fun _ _ => .inl)
      · exact .inr ((first.comp second).mono fun _ _ both => .inr (.inr both))

/-- Unrollings of one rule are bisimilar. -/
theorem of_unrolls (unrolls : arena.Unrolls x y) : arena.Bisimilar x y := by
  obtain ⟨cover, start, corresponds⟩ := unrolls
  refine ⟨fun z w => arena.Reaches x z ∧ cover z = w, .intro ?_, arena.reaches_self x, start⟩
  rintro z _ ⟨reaches, rfl⟩
  refine (corresponds z reaches).imp_right fun corresponds => ?_
  exact corresponds.with_child.mono fun _ _ ⟨child, _, covers⟩ => ⟨reaches.tail child, covers⟩

section WellFormed

variable (wellFormed : arena.WellFormed)

include wellFormed

/-- Bisimilarity is a bisimulation. -/
theorem cases (bisimilar : arena.Bisimilar x y) : arena.resolve x = arena.resolve y ∨
    arena.Corresponds arena.Bisimilar (arena.resolve x) (arena.resolve y) := by
  obtain ⟨Related, bisimulation, related⟩ := bisimilar
  refine (bisimulation.cases related).imp_right fun corresponds => ?_
  obtain ⟨e, e', found, found', sameShape, operands⟩ := corresponds
  refine ⟨e, e', found, found', sameShape, operands.imp fun o o' related => ?_⟩
  refine ⟨Related, bisimulation, ?_⟩
  rwa [wellFormed.resolve_resolve, wellFormed.resolve_resolve]

theorem complementFree (bisimilar : arena.Bisimilar x y) (free : arena.ComplementFree x) :
    arena.ComplementFree y := by
  obtain ⟨Related, bisimulation, related⟩ := bisimilar
  exact wellFormed.throughout_of_bisimulation bisimulation related nofun free

/-- Bisimilar expressions without complements have the same language. -/
theorem generates_iff (bisimilar : arena.Bisimilar x y) (free : arena.ComplementFree x)
    (lang : Language Char) : arena.Generates x lang ↔ arena.Generates y lang := by
  have free' := bisimilar.complementFree wellFormed free
  rw [wellFormed.generates_iff free, wellFormed.generates_iff free']
  obtain ⟨Related, bisimulation, related⟩ := bisimilar
  have means : arena.Means .least y (Interpretation.words.least arena x) :=
    wellFormed.means_of_bisimulation bisimulation related ⟨free, rfl⟩
  rw [means.2]

end WellFormed

end Bisimilar

end Residual.Arena
