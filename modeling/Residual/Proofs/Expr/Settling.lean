import Mathlib.Tactic.Linarith
import Residual.Proofs.Expr.Rearrangement

/-!
# The number of rounds

After a number of rounds that depends on the mass of an expression alone nothing changes any more.
The rounds for a smaller mass fix the parts of an alternation, and as many as its potential allows
put them in order.
-/

set_option autoImplicit false

namespace Residual.Rewriting

variable {Node : Type} {rewriting : Rewriting Node} {x y left right l r l' r' : Node}

/-- No alternation of this mass has a greater potential. -/
def potentialBound (mass : Nat) : Nat :=
  (2 * mass + 2) * mass ^ 2

/-- After this many rounds an expression of the given mass does not change any more. -/
def roundBound : Nat → Nat
  | 0 => 0
  | mass + 1 => roundBound mass + (potentialBound (mass + 1) + 1) + roundBound mass

theorem potential_le (cost : Nat) (x : Node) :
    rewriting.potential cost x ≤ (cost + 2) * rewriting.mass x ^ 2 := by
  induction x using rewriting.alternation_induction with
  | single x isSingle => simp [potential_single isSingle]
  | alt x left right isAlt first second =>
      have partsLeft := rewriting.parts_add_stale_le left
      have partsRight := rewriting.parts_add_stale_le right
      have crossed : Alternation.crossings rewriting.height (rewriting.parts left)
          (rewriting.parts right) ≤ _ := Alternation.crossings_le _ _
      have product : (rewriting.parts left).length * (rewriting.parts right).length ≤
          rewriting.mass left * rewriting.mass right := Nat.mul_le_mul (by omega) (by omega)
      have product' : (rewriting.parts left).length * rewriting.stale right ≤
          rewriting.mass left * rewriting.mass right := Nat.mul_le_mul (by omega) (by omega)
      have product'' : (rewriting.parts left).length * 1 ≤
          rewriting.mass left * rewriting.mass right :=
        Nat.mul_le_mul (by omega) (rewriting.mass_pos right)
      have dear := Nat.mul_le_mul_left cost product'
      rw [potential_alt isAlt, mass_alt isAlt, potentialAlt]
      calc
        _ ≤ (cost + 2) * (rewriting.mass left ^ 2 + rewriting.mass right ^ 2 +
              rewriting.mass left * rewriting.mass right) := by linarith
        _ ≤ (cost + 2) * (rewriting.mass left + rewriting.mass right + 1) ^ 2 :=
            Nat.mul_le_mul_left _ (by nlinarith)

theorem potential_le_bound {mass : Nat} (bounded : rewriting.mass x ≤ mass) :
    rewriting.potential (2 * mass) x ≤ potentialBound mass :=
  (potential_le _ x).trans (Nat.mul_le_mul_left _ (Nat.pow_le_pow_left bounded 2))

/-- A node that is fixed after some rounds stays as it is. -/
theorem fixed_of_le {k j : Nat} (fixed : rewriting.Fixed (rewriting.next^[k] x)) (later : k ≤ j) :
    rewriting.Fixed (rewriting.next^[j] x) := by
  obtain ⟨more, rfl⟩ := Nat.exists_eq_add_of_le later
  induction more with
  | zero => exact fixed
  | succ more inductionHypothesis =>
      have still := inductionHypothesis (Nat.le_add_right k more)
      rw [← Nat.add_assoc, Function.iterate_succ_apply', still]
      exact still

variable (rewriting) in
/-- Nodes of this mass are fixed after the rounds that are allowed for it, if they stay active so
long. -/
def Settling (mass : Nat) : Prop :=
  ∀ x, rewriting.mass x ≤ mass →
    (∀ k < roundBound mass, rewriting.Active (rewriting.next^[k] x)) →
    ∃ k < roundBound mass, rewriting.Fixed (rewriting.next^[k] x)

section Rounds

variable {rounds mass : Nat}

/-- For so many rounds the node stays active and loses nothing. -/
structure Lasts (rewriting : Rewriting Node) (rounds : Nat) (x : Node) : Prop where
  active : ∀ k < rounds, rewriting.Active (rewriting.next^[k] x)
  steady : ∀ k < rounds, rewriting.Steady (rewriting.next^[k] x)

theorem Lasts.mass_eq (lasts : rewriting.Lasts rounds x) {k : Nat} (within : k ≤ rounds) :
    rewriting.mass (rewriting.next^[k] x) = rewriting.mass x := by
  induction k with
  | zero => rfl
  | succ k inductionHypothesis =>
      rw [Function.iterate_succ_apply', lasts.steady k within]
      exact inductionHypothesis (Nat.le_of_succ_le within)

variable (lawful : rewriting.Lawful) (lasts : rewriting.Lasts rounds x)

include lawful lasts

/-- The operands of a node that is no union are rewritten for themselves. -/
theorem view_iterate (single : rewriting.Single x) {k : Nat} (within : k ≤ rounds) :
    rewriting.view (rewriting.next^[k] x) = (rewriting.view x).map rewriting.next^[k] := by
  induction k with
  | zero =>
      rw [Function.iterate_zero]
      exact (Expr.map_id _).symm
  | succ k inductionHypothesis =>
      have isView := inductionHypothesis (Nat.le_of_succ_le within)
      rcases steady_cases lawful (lasts.active k within) (lasts.steady k within) with
        ⟨_, _, isNext, _⟩ | ⟨left, right, _, _, _, _, isAlt, _⟩
      · rw [Function.iterate_succ_apply', isNext, isView, Expr.map_map, Function.iterate_succ']
        rfl
      · exact absurd isAlt (single.of_map isView left right)

theorem single_settles (settling : rewriting.Settling mass) (single : rewriting.Single x)
    (lighter : rewriting.mass x ≤ mass + 1) (enough : roundBound mass < rounds) :
    rewriting.Fixed (rewriting.next^[roundBound mass] x) := by
  have operand : ∀ {k}, k < rounds → ∀ o ∈ (rewriting.view x).operands,
      rewriting.next^[k] o ∈ (rewriting.view (rewriting.next^[k] x)).operands := by
    intro k within o member
    rw [view_iterate lawful lasts single within.le, Expr.operands_map]
    exact List.mem_map_of_mem member
  have activeOperand : ∀ o ∈ (rewriting.view x).operands, ∀ k < rounds,
      rewriting.Active (rewriting.next^[k] o) := by
    intro o member k within
    rcases steady_cases lawful (lasts.active k within) (lasts.steady k within) with
      ⟨_, operands, _, _⟩ | ⟨left, right, _, _, _, _, isAlt, _⟩
    · exact (operands _ (operand within o member)).1
    · exact absurd isAlt
        (single.of_map (view_iterate lawful lasts single within.le) left right)
  have fixedOperand : ∀ o ∈ (rewriting.view x).operands,
      rewriting.Fixed (rewriting.next^[roundBound mass] o) := by
    intro o member
    have less := rewriting.mass_operand member
    obtain ⟨k, within, fixed⟩ := settling o (by omega) fun k within =>
      activeOperand o member k (within.trans enough)
    exact fixed_of_le fixed within.le
  have isView := view_iterate lawful lasts single enough.le
  rcases steady_cases lawful (lasts.active _ enough) (lasts.steady _ enough) with
    ⟨_, _, _, fixed⟩ | ⟨left, right, _, _, _, _, isAlt, _⟩
  · refine fixed fun o member => ?_
    rw [isView, Expr.operands_map] at member
    obtain ⟨operand, isOperand, rfl⟩ := List.mem_map.mp member
    exact fixedOperand operand isOperand
  · exact absurd isAlt (single.of_map isView left right)

/-- The parts of an alternation are rewritten for themselves. -/
theorem parts_iterate {k : Nat} (within : k ≤ rounds) :
    (rewriting.parts (rewriting.next^[k] x)).Perm
      ((rewriting.parts x).map rewriting.next^[k]) := by
  induction k with
  | zero =>
      rw [Function.iterate_zero, List.map_id]
      exact .refl _
  | succ k inductionHypothesis =>
      have perm := inductionHypothesis (Nat.le_of_succ_le within)
      have step := (parts_next lawful (lasts.active k within) (lasts.steady k within)).1
      rw [Function.iterate_succ_apply']
      refine step.trans ((perm.map rewriting.next).trans ?_)
      rw [List.map_map, ← Function.iterate_succ']

/-- The parts of a union are lighter, so that they are fixed in time. -/
theorem parts_settle (settling : rewriting.Settling mass)
    (isAlt : rewriting.view x = .alt left right) (lighter : rewriting.mass x ≤ mass + 1) {k : Nat}
    (late : roundBound mass ≤ k) (within : k < rounds) :
    ∀ y ∈ rewriting.parts (rewriting.next^[k] x), rewriting.Fixed y := by
  intro y member
  have isLater := (parts_iterate lawful lasts within.le).mem_iff.mp member
  obtain ⟨part, isPart, rfl⟩ := List.mem_map.mp isLater
  have activePart : ∀ j < rounds, rewriting.Active (rewriting.next^[j] part) := by
    intro j within
    refine ((parts_next lawful (lasts.active j within) (lasts.steady j within)).2 _ ?_).1
    exact (parts_iterate lawful lasts within.le).mem_iff.mpr (List.mem_map_of_mem isPart)
  have less : rewriting.mass part ≤ mass := by
    have heavier := mass_alt isAlt
    have leftPositive := rewriting.mass_pos left
    have rightPositive := rewriting.mass_pos right
    rw [parts_alt isAlt, List.mem_append] at isPart
    rcases isPart with isPart | isPart
    · have := mass_part_le isPart
      omega
    · have := mass_part_le isPart
      omega
  obtain ⟨j, early, fixed⟩ := settling part less fun j early =>
    activePart j (early.trans_le (late.trans within.le))
  exact fixed_of_le fixed (early.le.trans late)

theorem alt_settles (settling : rewriting.Settling mass)
    (isAlt : rewriting.view x = .alt left right) (lighter : rewriting.mass x ≤ mass + 1)
    (enough : roundBound mass + (potentialBound (mass + 1) + 1) ≤ rounds) :
    ∃ k < rounds, rewriting.Fixed (rewriting.next^[k] x) := by
  by_contra unsettled
  have falls : ∀ {k}, roundBound mass ≤ k → k < rounds →
      rewriting.potential (2 * (mass + 1)) (rewriting.next^[k + 1] x) <
        rewriting.potential (2 * (mass + 1)) (rewriting.next^[k] x) := by
    intro k late within
    have few := rewriting.parts_add_stale_le (rewriting.next^[k] x)
    rw [lasts.mass_eq within.le] at few
    have enough : 2 * (rewriting.parts (rewriting.next^[k] x)).length ≤ 2 * (mass + 1) := by omega
    obtain ⟨calms, _⟩ := calms_of_fixed_parts lawful (lasts.active k within)
      (lasts.steady k within) (parts_settle lawful lasts settling isAlt lighter late within) enough
    rw [Function.iterate_succ_apply']
    exact calms.2.resolve_left fun fixed => unsettled ⟨k, within, fixed⟩
  have sinks : ∀ j ≤ potentialBound (mass + 1) + 1,
      rewriting.potential (2 * (mass + 1)) (rewriting.next^[roundBound mass + j] x) + j ≤
        potentialBound (mass + 1) := by
    intro j early
    induction j with
    | zero =>
        refine potential_le_bound ?_
        rw [lasts.mass_eq (by omega)]
        exact lighter
    | succ j inductionHypothesis =>
        have above := inductionHypothesis (by omega)
        have less := falls (k := roundBound mass + j) (by omega) (by omega)
        change rewriting.potential _ (rewriting.next^[roundBound mass + j + 1] x) + (j + 1) ≤ _
        omega
  have bottom := sinks _ le_rfl
  omega

end Rounds

/-- Every node is fixed after a number of rounds that depends on its mass alone. -/
theorem settling (lawful : rewriting.Lawful) (mass : Nat) : rewriting.Settling mass := by
  induction mass with
  | zero =>
      intro x bounded _
      exact absurd (rewriting.mass_pos x) (Nat.not_lt_of_le bounded)
  | succ mass inductionHypothesis =>
      intro x bounded active
      have isBound : roundBound (mass + 1) =
          roundBound mass + (potentialBound (mass + 1) + 1) + roundBound mass := rfl
      by_cases steady : ∀ k < roundBound mass + (potentialBound (mass + 1) + 1),
          rewriting.Steady (rewriting.next^[k] x)
      · have lasts : rewriting.Lasts (roundBound mass + (potentialBound (mass + 1) + 1)) x :=
          ⟨fun k within => active k (by omega), steady⟩
        rcases rewriting.alt_or_single x with ⟨left, right, isAlt⟩ | single
        · obtain ⟨k, within, fixed⟩ :=
            alt_settles lawful lasts inductionHypothesis isAlt bounded le_rfl
          exact ⟨k, by omega, fixed⟩
        · have fixed := single_settles lawful lasts inductionHypothesis single bounded (by omega)
          exact ⟨_, by omega, fixed⟩
      · -- once the node has lost something, the rounds for the next smaller mass are enough
        push Not at steady
        obtain ⟨k, within, unsteady⟩ := steady
        have heavy : ∀ {j}, j ≤ k → rewriting.mass (rewriting.next^[j] x) ≤ mass + 1 := by
          intro j early
          induction j with
          | zero => exact bounded
          | succ j inductionHypothesis =>
              rw [Function.iterate_succ_apply']
              exact (mass_next_le lawful (active j (by omega))).trans
                (inductionHypothesis (by omega))
        have light : rewriting.mass (rewriting.next^[k + 1] x) ≤ mass := by
          have less := mass_next_le lawful (active k (by omega))
          have bounded := heavy le_rfl
          unfold Steady at unsteady
          rw [Function.iterate_succ_apply']
          omega
        obtain ⟨j, early, fixed⟩ := inductionHypothesis _ light fun j early => by
          rw [← Function.iterate_add_apply]
          exact active _ (by omega)
        rw [← Function.iterate_add_apply] at fixed
        exact ⟨_, by omega, fixed⟩

/-- A union that does not change in a round is orderly. -/
theorem orderly_of_fixed (lawful : rewriting.Lawful) (active : ∀ x, rewriting.Active x)
    (fixed : rewriting.Fixed x) (isAlt : rewriting.view x = .alt left right) :
    rewriting.Orderly left right := by
  have same : ∀ k, rewriting.next^[k] x = x := fun k => Function.iterate_fixed fixed k
  have steady : rewriting.Steady x := congrArg rewriting.mass fixed
  have lasts : rewriting.Lasts (roundBound (rewriting.mass x) + 1) x :=
    ⟨fun _ _ => active _, fun k _ => by rwa [same k]⟩
  have parts := parts_settle lawful lasts (settling lawful _) isAlt (Nat.le_succ _) le_rfl
    (Nat.lt_succ_self _)
  rw [same] at parts
  refine ((calms_of_fixed_parts lawful (active x) steady parts le_rfl).2 isAlt).resolve_right ?_
  rw [show rewriting.next x = x from fixed]
  exact Nat.lt_irrefl _

end Residual.Rewriting
