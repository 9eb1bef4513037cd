import Residual.Proofs.Arena.Bisimilarity

/-!
# Links that are bound later

While an arena grows, links that came after its first `limit` slots may be bound.  Bindings below a
number show themselves: if there is none, the number is bisimilar to no more numbers than before.
-/

set_option autoImplicit false

namespace Residual.Arena

variable {arena before after : Arena} {limit : Nat} {x y : ExprId}

/-- The slot of the first number refers to the second one. -/
def Points (arena : Arena) (x y : ExprId) : Prop :=
  arena.slot? x = some (.link (some y)) ∨ ∃ e, arena.slot? x = some (.expr e) ∧ y ∈ e.operands

/-- A link that is not among the first `limit` slots is bound at the number or below it. -/
def Patched (arena : Arena) (limit : Nat) (x : ExprId) : Prop :=
  ∃ link target, Relation.ReflTransGen arena.Points x link ∧ limit ≤ link.number ∧
    arena.slot? link = some (.link (some target))

/-- The first `limit` slots are unchanged in the later arena. -/
def Agree (limit : Nat) (before after : Arena) : Prop :=
  ∀ id, id.number < limit → after.slot? id = before.slot? id

theorem Extends.agree (extending : before.Extends after) (limited : limit ≤ before.size) :
    Agree limit before after :=
  fun id inside => extending id (inside.trans_le limited)

/-- Two arenas that extend one agree on it. -/
theorem Extends.agree_both {base : Arena} (first : base.Extends before)
    (second : base.Extends after) (limited : limit ≤ base.size) : Agree limit before after :=
  fun id inside =>
    (second id (inside.trans_le limited)).trans (first id (inside.trans_le limited)).symm

theorem not_patched_size : ¬ arena.Patched arena.size x := by
  rintro ⟨link, target, _, late, bound⟩
  exact absurd (lt_size_of_slot? bound) (Nat.not_lt_of_le late)

theorem Patched.of_points (patched : arena.Patched limit y) (points : arena.Points x y) :
    arena.Patched limit x := by
  obtain ⟨link, target, path, late, bound⟩ := patched
  exact ⟨link, target, path.head points, late, bound⟩

theorem Patched.grows (patched : before.Patched limit x) (growing : before.Grows after) :
    after.Patched limit x := by
  obtain ⟨link, target, path, late, bound⟩ := patched
  have points : ∀ x y, before.Points x y → after.Points x y := by
    rintro x y (bound | ⟨e, found, member⟩)
    · exact .inl (growing.bound bound)
    · exact .inr ⟨e, growing.expr found, member⟩
  exact ⟨link, target, Relation.ReflTransGen.mono points x link path, late, growing.bound bound⟩

theorem Patched.of_resolve (wellFormed : arena.WellFormed)
    (patched : arena.Patched limit (arena.resolve x)) : arena.Patched limit x := by
  obtain ⟨steps, chain⟩ := wellFormed.leads_resolve x
  generalize arena.resolve x = last at chain patched
  induction chain with
  | stop _ => exact patched
  | link found _ inductionHypothesis =>
      exact (inductionHypothesis patched).of_points (.inl found)

/-- What is bound below an operand is bound below the expression. -/
theorem Patched.of_operand {e : Expr ExprId} {o : ExprId} (wellFormed : arena.WellFormed)
    (found : arena.slot? x = some (.expr e)) (member : o ∈ e.operands)
    (patched : arena.Patched limit (arena.resolve o)) : arena.Patched limit x :=
  (patched.of_resolve wellFormed).of_points (.inr ⟨e, found, member⟩)

/-- What is bound below an expression is bound below one of its operands. -/
theorem Patched.exists_operand {e : Expr ExprId} (patched : arena.Patched limit x)
    (found : arena.slot? x = some (.expr e)) : ∃ o ∈ e.operands, arena.Patched limit o := by
  obtain ⟨link, target, path, late, bound⟩ := patched
  rcases path.cases_head with rfl | ⟨o, isTarget | ⟨e', isExpr, member⟩, path⟩
  · cases found.symm.trans bound
  · cases found.symm.trans isTarget
  · cases found.symm.trans isExpr
    exact ⟨o, member, link, target, path, late, bound⟩

section Unpatched

variable (growing : before.Grows after) (agree : Agree limit before after)

include growing agree

/-- The slot of a number without bindings is the same as before. -/
theorem slot?_of_not_patched (inside : x.number < before.size) (clean : ¬ after.Patched limit x) :
    after.slot? x = before.slot? x := by
  obtain ⟨slot, found⟩ := exists_slot? inside
  rw [found]
  match slot, found with
  | .expr e, found => exact growing.expr found
  | .link (some target), found => exact growing.bound found
  | .link none, found =>
      obtain ⟨_ | target, found'⟩ := growing.unbound found
      · exact found'
      · by_cases early : x.number < limit
        · rw [agree x early, found]
        · exact absurd ⟨x, target, .refl, Nat.le_of_not_lt early, found'⟩ clean

variable (wellFormed : before.WellFormed) (wellFormed' : after.WellFormed)

include wellFormed wellFormed'

theorem resolve_of_not_patched (inside : x.number < before.size)
    (clean : ¬ after.Patched limit x) :
    after.resolve x = before.resolve x ∧ ¬ after.Patched limit (after.resolve x) := by
  refine ⟨?_, fun patched => clean (patched.of_resolve wellFormed')⟩
  obtain ⟨steps, chain⟩ := wellFormed'.leads_resolve x
  generalize after.resolve x = last at chain
  induction chain with
  | @stop x final =>
      rw [slot?_of_not_patched growing agree inside clean] at final
      exact (resolve_of_final final).symm
  | @link _ x target _ found _ inductionHypothesis =>
      have clean' : ¬ after.Patched limit target := fun patched =>
        clean (patched.of_points (.inl found))
      rw [slot?_of_not_patched growing agree inside clean] at found
      rw [wellFormed.resolve_link found]
      exact inductionHypothesis (wellFormed.target_lt found) clean'

/-- Numbers below which nothing was bound are not bisimilar unless they were so before. -/
theorem bisimilar_of_not_patched (inside : x.number < before.size) (inside' : y.number < before.size)
    (clean : ¬ after.Patched limit x) (clean' : ¬ after.Patched limit y)
    (bisimilar : after.Bisimilar x y) : before.Bisimilar x y := by
  obtain ⟨Related, bisimulation, related⟩ := bisimilar
  let Clean : ExprId → Prop := fun id => id.number < before.size ∧ ¬ after.Patched limit id
  have clean_resolve : ∀ {id}, Clean id →
      after.resolve id = before.resolve id ∧ Clean (before.resolve id) := by
    intro id ⟨inside, clean⟩
    obtain ⟨same, clean'⟩ :=
      resolve_of_not_patched growing agree wellFormed wellFormed' inside clean
    rw [same] at clean'
    exact ⟨same, wellFormed.resolve_lt inside, clean'⟩
  refine ⟨fun x y => Clean x ∧ Clean y ∧ Related x y, .intro ?_, ?_⟩
  · rintro x y ⟨clean, clean', related⟩
    refine (bisimulation.cases related).imp_right ?_
    rintro ⟨e, e', found, found', sameShape, operands⟩
    have slot := slot?_of_not_patched growing agree clean.1 clean.2
    have slot' := slot?_of_not_patched growing agree clean'.1 clean'.2
    have was := slot.symm.trans found
    have was' := slot'.symm.trans found'
    refine ⟨e, e', was, was', sameShape, (forall₂_mem operands).imp ?_⟩
    rintro o o' ⟨member, member', related⟩
    obtain ⟨same, clean⟩ := clean_resolve ⟨wellFormed.operand_lt was o member,
      fun patched => clean.2 (patched.of_points (.inr ⟨e, found, member⟩))⟩
    obtain ⟨same', clean'⟩ := clean_resolve ⟨wellFormed.operand_lt was' o' member',
      fun patched => clean'.2 (patched.of_points (.inr ⟨e', found', member'⟩))⟩
    rw [same, same'] at related
    exact ⟨clean, clean', related⟩
  · obtain ⟨same, isClean⟩ := clean_resolve ⟨inside, clean⟩
    obtain ⟨same', isClean'⟩ := clean_resolve ⟨inside', clean'⟩
    rw [same, same'] at related
    exact ⟨isClean, isClean', related⟩

end Unpatched

end Residual.Arena
