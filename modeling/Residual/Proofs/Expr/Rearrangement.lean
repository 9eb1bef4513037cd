import Residual.Proofs.Expr.Rewriting

/-!
# How rounds rearrange alternations

Once a round takes nothing away at any level, the parts of an alternation are rewritten for
themselves.  When they are fixed, every round that changes the alternation lowers its potential.
-/

set_option autoImplicit false

namespace Residual.Rewriting

variable {Node : Type} {rewriting : Rewriting Node} {x y left right l r l' r' : Node}

variable (rewriting) in
/-- The alternation that a node stands for. -/
def expand (x : Node) : Alternation Node :=
  match _isView : rewriting.view x with
  | .alt left right => .sum x (expand left) (expand right)
  | _ => .part x
termination_by rewriting.mass x
decreasing_by
  · exact mass_left _isView
  · exact mass_right _isView

theorem expand_alt (isAlt : rewriting.view x = .alt left right) :
    rewriting.expand x = .sum x (rewriting.expand left) (rewriting.expand right) := by
  rw [expand]
  split
  · rename_i left' right' isView
    cases isAlt.symm.trans isView
    rfl
  · rename_i other
    exact absurd isAlt (other left right)

theorem expand_single (single : rewriting.Single x) : rewriting.expand x = .part x := by
  rw [expand]
  split
  · rename_i left right isView
    exact absurd isView (single left right)
  · rfl

variable (rewriting) in
/-- The parts of the alternation that a node stands for. -/
def parts (x : Node) : List Node :=
  (rewriting.expand x).parts

variable (rewriting) in
/-- The number of its unions that are not graded. -/
noncomputable def stale (x : Node) : Nat :=
  (rewriting.expand x).stale rewriting.Graded

variable (rewriting) in
/-- The potential of the alternation that a node stands for. -/
noncomputable def potential (cost : Nat) (x : Node) : Nat :=
  (rewriting.expand x).potential rewriting.height rewriting.Graded cost

variable (rewriting) in
/-- The potential of a union with these operands. -/
noncomputable def potentialAlt (cost : Nat) (left right : Node) : Nat :=
  rewriting.potential cost left + rewriting.potential cost right +
    cost * ((rewriting.parts left).length * rewriting.stale right) +
    Alternation.crossings rewriting.height (rewriting.parts left) (rewriting.parts right) +
    (rewriting.parts left).length

theorem potential_alt {cost : Nat} (isAlt : rewriting.view x = .alt left right) :
    rewriting.potential cost x = rewriting.potentialAlt cost left right := by
  unfold potential
  rw [expand_alt isAlt]
  rfl

theorem potential_single {cost : Nat} (single : rewriting.Single x) :
    rewriting.potential cost x = 0 := by
  unfold potential
  rw [expand_single single]
  rfl

theorem parts_alt (isAlt : rewriting.view x = .alt left right) :
    rewriting.parts x = rewriting.parts left ++ rewriting.parts right := by
  unfold parts
  rw [expand_alt isAlt]
  rfl

theorem parts_single (single : rewriting.Single x) : rewriting.parts x = [x] := by
  unfold parts
  rw [expand_single single]
  rfl

theorem stale_single (single : rewriting.Single x) : rewriting.stale x = 0 := by
  unfold stale
  rw [expand_single single]
  rfl

theorem stale_alt_le (isAlt : rewriting.view x = .alt left right) :
    rewriting.stale left + rewriting.stale right ≤ rewriting.stale x := by
  unfold stale
  rw [expand_alt isAlt, Alternation.stale]
  omega

theorem stale_alt_of_graded (isAlt : rewriting.view x = .alt left right)
    (graded : rewriting.Graded x) :
    rewriting.stale x = rewriting.stale left + rewriting.stale right := by
  unfold stale
  rw [expand_alt isAlt, Alternation.stale, if_pos graded, Nat.zero_add]

theorem graded_of_stale_eq_zero (isAlt : rewriting.view x = .alt left right)
    (none : rewriting.stale x = 0) : rewriting.Graded x := by
  by_contra isStale
  unfold stale at none
  rw [expand_alt isAlt, Alternation.stale, if_neg isStale] at none
  omega

variable (rewriting) in
/-- A node is a union, or a part on its own. -/
theorem alt_or_single (x : Node) :
    (∃ left right, rewriting.view x = .alt left right) ∨ rewriting.Single x := by
  by_cases isAlt : ∃ left right, rewriting.view x = .alt left right
  · exact .inl isAlt
  · exact .inr fun left right same => isAlt ⟨left, right, same⟩

variable (rewriting) in
/-- The alternation of a union is made from those of its operands. -/
theorem alternation_induction {motive : Node → Prop}
    (single : ∀ x, rewriting.Single x → motive x)
    (alt : ∀ x left right, rewriting.view x = .alt left right → motive left → motive right →
      motive x) (x : Node) : motive x := by
  induction bound : rewriting.mass x using Nat.strong_induction_on generalizing x with
  | _ n inductionHypothesis =>
      subst bound
      rcases rewriting.alt_or_single x with ⟨left, right, isAlt⟩ | isSingle
      · exact alt x left right isAlt (inductionHypothesis _ (mass_left isAlt) left rfl)
          (inductionHypothesis _ (mass_right isAlt) right rfl)
      · exact single x isSingle

theorem mass_part_le (member : y ∈ rewriting.parts x) : rewriting.mass y ≤ rewriting.mass x := by
  induction x using rewriting.alternation_induction with
  | single x isSingle =>
      rw [parts_single isSingle, List.mem_singleton] at member
      rw [member]
  | alt x left right isAlt first second =>
      rw [parts_alt isAlt, List.mem_append] at member
      rcases member with member | member
      · exact (first member).trans (mass_left isAlt).le
      · exact (second member).trans (mass_right isAlt).le

variable (rewriting) in
/-- Every part and every union of an alternation weighs something. -/
theorem parts_add_stale_le (x : Node) :
    (rewriting.parts x).length + rewriting.stale x ≤ rewriting.mass x := by
  induction x using rewriting.alternation_induction with
  | single x isSingle =>
      rw [parts_single isSingle, stale_single isSingle]
      exact rewriting.mass_pos x
  | alt x left right isAlt first second =>
      have few : rewriting.stale x ≤ rewriting.stale left + rewriting.stale right + 1 := by
        unfold stale
        rw [expand_alt isAlt, Alternation.stale]
        split
        all_goals omega
      rw [parts_alt isAlt, List.length_append, mass_alt isAlt]
      omega

/-- If all unions are graded, then the parts are at most as high as the alternation. -/
theorem height_part_le (none : rewriting.stale x = 0) {h : Nat}
    (isHeight : rewriting.height x = some h) (member : y ∈ rewriting.parts x) :
    ∃ h', rewriting.height y = some h' ∧ h' ≤ h := by
  induction x using rewriting.alternation_induction generalizing h with
  | single x isSingle =>
      rw [parts_single isSingle, List.mem_singleton] at member
      rw [member]
      exact ⟨h, isHeight, le_rfl⟩
  | alt x left right isAlt first second =>
      have graded := graded_of_stale_eq_zero isAlt none h isHeight
      have fewer := stale_alt_le isAlt
      rw [isAlt] at graded
      obtain ⟨k, isLeft, lower⟩ := graded left (by simp [Expr.operands])
      obtain ⟨k', isRight, lower'⟩ := graded right (by simp [Expr.operands])
      rw [parts_alt isAlt, List.mem_append] at member
      rcases member with member | member
      · obtain ⟨h', isHeight', below⟩ := first (by omega) isLeft member
        exact ⟨h', isHeight', by omega⟩
      · obtain ⟨h', isHeight', below⟩ := second (by omega) isRight member
        exact ⟨h', isHeight', by omega⟩

theorem Turns.parts_eq (turns : rewriting.Turns left right l r) :
    rewriting.parts l ++ rewriting.parts r = rewriting.parts left ++ rewriting.parts right := by
  cases turns with
  | flat _ => rfl
  | turned isAlt isTail _ => rw [parts_alt isAlt, parts_alt isTail, List.append_assoc]

theorem Turns.stale_le (turns : rewriting.Turns left right l r) :
    rewriting.stale l + rewriting.stale r ≤ rewriting.stale left + rewriting.stale right := by
  cases turns with
  | flat _ => exact le_rfl
  | turned isAlt isTail graded =>
      have := stale_alt_le isAlt
      rw [stale_alt_of_graded isTail graded]
      omega

theorem Orders.parts_perm (orders : rewriting.Orders l r l' r') :
    (rewriting.parts l' ++ rewriting.parts r').Perm (rewriting.parts l ++ rewriting.parts r) := by
  cases orders with
  | kept _ _ _ => exact .refl _
  | swapped _ _ _ => exact List.perm_append_comm

theorem Orders.stale_eq (orders : rewriting.Orders l r l' r') :
    rewriting.stale l' + rewriting.stale r' = rewriting.stale l + rewriting.stale r := by
  cases orders with
  | kept _ _ _ => rfl
  | swapped _ _ _ => exact Nat.add_comm _ _

/-- The operand that moves to the right is a single part, and the potential falls. -/
theorem potential_swapped {cost h h' : Nat} (single : rewriting.Single l)
    (isHeight : rewriting.height l = some h) (isHeight' : rewriting.height r = some h')
    (lower : h' < h) (enough : 2 * (rewriting.parts r).length ≤ cost) :
    rewriting.potentialAlt cost r l < rewriting.potentialAlt cost l r := by
  have isPart : rewriting.potentialAlt cost l r = (Alternation.sum l (.part l)
      (rewriting.expand r)).potential rewriting.height rewriting.Graded cost := by
    unfold potentialAlt potential parts
    rw [expand_single single]
    rfl
  have isPart' : rewriting.potentialAlt cost r l = (Alternation.sum l (rewriting.expand r)
      (.part l)).potential rewriting.height rewriting.Graded cost := by
    unfold potentialAlt potential parts stale
    rw [expand_single single]
    rfl
  rw [isPart, isPart']
  rcases Nat.eq_zero_or_pos (rewriting.stale r) with none | some
  · refine Alternation.potential_swap fun z member => ?_
    obtain ⟨k, isHeight'', below⟩ := height_part_le none isHeight' member
    exact Alternation.isAbove_iff.mpr ⟨h, k, isHeight, isHeight'', by omega⟩
  · exact Alternation.potential_swap_stale enough some

theorem potential_turned {cost : Nat} {inner rest tail : Node}
    (isAlt : rewriting.view l = .alt inner rest) (isTail : rewriting.view tail = .alt rest r)
    (graded : rewriting.Graded tail) :
    rewriting.potentialAlt cost inner tail < rewriting.potentialAlt cost l r := by
  unfold potentialAlt potential parts stale
  rw [expand_alt isAlt, expand_alt isTail]
  exact Alternation.potential_turn graded

/-- A union that is not rearranged: its operands are fixed, the left one is no union, and it is not
the higher one. -/
structure Orderly (rewriting : Rewriting Node) (left right : Node) : Prop where
  fixedLeft : rewriting.Fixed left
  fixedRight : rewriting.Fixed right
  single : rewriting.Single left
  ordered : ∃ h h', rewriting.height left = some h ∧ rewriting.height right = some h' ∧ h ≤ h'

section Lawful

variable (lawful : rewriting.Lawful) (active : rewriting.Active x)

include lawful active

/-- The parts of an alternation are rewritten for themselves. -/
theorem parts_next (steady : rewriting.Steady x) :
    (rewriting.parts (rewriting.next x)).Perm ((rewriting.parts x).map rewriting.next) ∧
      ∀ y ∈ rewriting.parts x, rewriting.Active y ∧ rewriting.Steady y := by
  induction x using rewriting.alternation_induction with
  | single x isSingle =>
      rcases steady_cases lawful active steady with
        ⟨_, _, isView, _⟩ | ⟨left, right, _, _, _, _, isAlt, _⟩
      · rw [parts_single isSingle, parts_single (isSingle.of_map isView)]
        refine ⟨.refl _, fun y member => ?_⟩
        rw [List.mem_singleton.mp member]
        exact ⟨active, steady⟩
      · exact absurd isAlt (isSingle left right)
  | alt x left right isAlt first second =>
      rcases steady_cases lawful active steady with
        ⟨isSingle, _⟩ | ⟨_, _, l, r, l', r', isAlt', ⟨activeLeft, steadyLeft⟩,
          ⟨activeRight, steadyRight⟩, turns, orders, isAlt'', _, _⟩
      · exact absurd isAlt (isSingle left right)
      · cases isAlt.symm.trans isAlt'
        obtain ⟨permLeft, eachLeft⟩ := first activeLeft steadyLeft
        obtain ⟨permRight, eachRight⟩ := second activeRight steadyRight
        rw [parts_alt isAlt, parts_alt isAlt'', List.map_append]
        refine ⟨?_, fun y member => (List.mem_append.mp member).elim (eachLeft y) (eachRight y)⟩
        refine orders.parts_perm.trans ?_
        rw [turns.parts_eq]
        exact permLeft.append permRight

omit active in
/-- A union whose operands were rewritten is rearranged, so that the potential falls, or its left
operand is no union and not the higher one. -/
theorem rearranged {cost : Nat} (active : rewriting.Active left) (steady : rewriting.Steady left)
    (turns : rewriting.Turns (rewriting.next left) right l r)
    (orders : rewriting.Orders l r l' r')
    (enough : 2 * ((rewriting.parts (rewriting.next left)).length +
      (rewriting.parts right).length) ≤ cost) :
    (l' = rewriting.next left ∧ r' = right ∧ rewriting.Single l' ∧
      ∃ h h', rewriting.height l' = some h ∧ rewriting.height r' = some h' ∧ h ≤ h') ∨
    rewriting.potentialAlt cost l' r' <
      rewriting.potentialAlt cost (rewriting.next left) right := by
  have turned : (l = rewriting.next left ∧ r = right ∧ rewriting.Single l) ∨
      rewriting.potentialAlt cost l r <
        rewriting.potentialAlt cost (rewriting.next left) right := by
    cases turns with
    | flat single => exact .inl ⟨rfl, rfl, single⟩
    | turned isAlt isTail graded => exact .inr (potential_turned isAlt isTail graded)
  cases orders with
  | kept isHeight isHeight' lower =>
      refine turned.imp_left ?_
      rintro ⟨rfl, rfl, single⟩
      exact ⟨rfl, rfl, single, _, _, isHeight, isHeight', lower⟩
  | @swapped h h' isHeight isHeight' lower =>
      have single : rewriting.Single l := by
        cases turns with
        | flat single => exact single
        | turned isAlt isTail graded =>
            refine (single_or_lower lawful active steady isAlt).resolve_right ?_
            rintro ⟨k, k', isInner, isRest, lower'⟩
            obtain ⟨k'', isRest', lower''⟩ := graded _ isHeight' _
              (by rw [isTail]; exact List.mem_cons_self)
            cases isHeight.symm.trans isInner
            cases isRest.symm.trans isRest'
            omega
      have sameLength := congrArg List.length turns.parts_eq
      rw [List.length_append, List.length_append] at sameLength
      have enough' : 2 * (rewriting.parts r).length ≤ cost := by omega
      have swapped := potential_swapped single isHeight isHeight' lower enough'
      refine .inr (swapped.trans_le ?_)
      rcases turned with ⟨rfl, rfl, _⟩ | less
      · exact le_rfl
      · exact less.le

variable (rewriting) in
omit lawful active in
/-- A round does not disorder the node: no more unions get a wrong height, and the potential falls
unless the node is fixed. -/
def Calms (cost : Nat) (x : Node) : Prop :=
  rewriting.stale (rewriting.next x) ≤ rewriting.stale x ∧
    (rewriting.Fixed x ∨
      rewriting.potential cost (rewriting.next x) < rewriting.potential cost x)

omit lawful active in
theorem Calms.potential_le {cost : Nat} (calms : rewriting.Calms cost x) :
    rewriting.potential cost (rewriting.next x) ≤ rewriting.potential cost x := by
  rcases calms.2 with fixed | less
  · rw [fixed]
  · exact less.le

omit lawful active in
/-- What the rewriting of both operands does to the potential of a union. -/
theorem potentialAlt_next {cost : Nat} (calmLeft : rewriting.Calms cost left)
    (calmRight : rewriting.Calms cost right)
    (permLeft : (rewriting.parts (rewriting.next left)).Perm (rewriting.parts left))
    (permRight : (rewriting.parts (rewriting.next right)).Perm (rewriting.parts right)) :
    (rewriting.Fixed left ∧ rewriting.Fixed right) ∨
      rewriting.potentialAlt cost (rewriting.next left) (rewriting.next right) <
        rewriting.potentialAlt cost left right := by
  have first := calmLeft.potential_le
  have second := calmRight.potential_le
  have cheaper : cost * ((rewriting.parts left).length * rewriting.stale (rewriting.next right)) ≤
      cost * ((rewriting.parts left).length * rewriting.stale right) :=
    Nat.mul_le_mul_left _ (Nat.mul_le_mul_left _ calmRight.1)
  unfold potentialAlt
  rw [Alternation.crossings_perm permLeft permRight, permLeft.length_eq]
  rcases calmLeft.2 with fixed | less
  · rcases calmRight.2 with fixed' | less
    · exact .inl ⟨fixed, fixed'⟩
    · exact .inr (by omega)
  · exact .inr (by omega)

omit active in
/-- A union whose parts are fixed is orderly and fixed, or its potential falls. -/
theorem unite_calms {cost : Nat} (isAlt : rewriting.view x = .alt left right)
    (activeLeft : rewriting.Active left) (steadyLeft : rewriting.Steady left)
    (turns : rewriting.Turns (rewriting.next left) (rewriting.next right) l r)
    (orders : rewriting.Orders l r l' r') (isAlt' : rewriting.view (rewriting.next x) = .alt l' r')
    (graded : rewriting.Fixed x ∨ rewriting.Graded (rewriting.next x))
    (unchanged : l' = left → r' = right → rewriting.Fixed x)
    (calmLeft : rewriting.Calms cost left) (calmRight : rewriting.Calms cost right)
    (permLeft : (rewriting.parts (rewriting.next left)).Perm (rewriting.parts left))
    (permRight : (rewriting.parts (rewriting.next right)).Perm (rewriting.parts right))
    (enough : 2 * (rewriting.parts x).length ≤ cost) :
    rewriting.stale (rewriting.next x) ≤ rewriting.stale x ∧
      (rewriting.Orderly left right ∧ rewriting.Fixed x ∨
        rewriting.potential cost (rewriting.next x) < rewriting.potential cost x) := by
  refine ⟨?_, ?_⟩
  · rcases graded with fixed | graded
    · rw [fixed]
    · have fewer := stale_alt_le isAlt
      have turned := turns.stale_le
      have ordered := orders.stale_eq
      have fewerLeft := calmLeft.1
      have fewerRight := calmRight.1
      rw [stale_alt_of_graded isAlt' graded]
      omega
  · rw [potential_alt isAlt, potential_alt isAlt']
    have few : 2 * ((rewriting.parts (rewriting.next left)).length +
        (rewriting.parts (rewriting.next right)).length) ≤ cost := by
      rw [parts_alt isAlt, List.length_append] at enough
      rwa [permLeft.length_eq, permRight.length_eq]
    have operands := potentialAlt_next calmLeft calmRight permLeft permRight
    rcases rearranged lawful activeLeft steadyLeft turns orders few with
      ⟨rfl, rfl, single, ordered⟩ | less
    · rcases operands with ⟨fixedLeft, fixedRight⟩ | less
      · refine .inl ⟨⟨fixedLeft, fixedRight, ?_, ?_⟩, unchanged fixedLeft fixedRight⟩
        · rwa [fixedLeft] at single
        · rwa [fixedLeft, fixedRight] at ordered
      · exact .inr less
    · refine .inr (less.trans_le ?_)
      rcases operands with ⟨fixedLeft, fixedRight⟩ | less
      · rw [fixedLeft, fixedRight]
      · exact less.le

theorem parts_next_of_fixed (steady : rewriting.Steady x)
    (fixed : ∀ y ∈ rewriting.parts x, rewriting.Fixed y) :
    (rewriting.parts (rewriting.next x)).Perm (rewriting.parts x) := by
  have same : (rewriting.parts x).map rewriting.next = rewriting.parts x :=
    (List.map_congr_left fixed).trans (List.map_id _)
  exact same ▸ (parts_next lawful active steady).1

/-- Once the parts of an alternation are fixed, each round lowers its potential until the
alternation is orderly and fixed itself. -/
theorem calms_of_fixed_parts {cost : Nat} (steady : rewriting.Steady x)
    (fixed : ∀ y ∈ rewriting.parts x, rewriting.Fixed y)
    (enough : 2 * (rewriting.parts x).length ≤ cost) : rewriting.Calms cost x ∧
      ∀ {left right}, rewriting.view x = .alt left right → rewriting.Orderly left right ∨
        rewriting.potential cost (rewriting.next x) < rewriting.potential cost x := by
  induction x using rewriting.alternation_induction with
  | single x isSingle =>
      have isFixed : rewriting.Fixed x := fixed x (by simp [parts_single isSingle])
      refine ⟨⟨?_, .inl isFixed⟩, fun isAlt => absurd isAlt (isSingle _ _)⟩
      rw [isFixed]
  | alt x left right isAlt first second =>
      rcases steady_cases lawful active steady with
        ⟨isSingle, _⟩ | ⟨_, _, l, r, l', r', isAlt', ⟨activeLeft, steadyLeft⟩,
          ⟨activeRight, steadyRight⟩, turns, orders, isAlt'', graded, unchanged⟩
      · exact absurd isAlt (isSingle left right)
      · cases isAlt.symm.trans isAlt'
        have few := enough
        rw [parts_alt isAlt, List.length_append] at few
        rw [parts_alt isAlt, List.forall_mem_append] at fixed
        obtain ⟨calmLeft, _⟩ := first activeLeft steadyLeft fixed.1 (by omega)
        obtain ⟨calmRight, _⟩ := second activeRight steadyRight fixed.2 (by omega)
        obtain ⟨fewer, orderly⟩ := unite_calms lawful isAlt activeLeft steadyLeft turns orders
          isAlt'' graded unchanged calmLeft calmRight
          (parts_next_of_fixed lawful activeLeft steadyLeft fixed.1)
          (parts_next_of_fixed lawful activeRight steadyRight fixed.2) enough
        refine ⟨⟨fewer, orderly.imp_left And.right⟩, fun isAlt' => ?_⟩
        cases isAlt.symm.trans isAlt'
        exact orderly.imp_left And.left

end Lawful

end Residual.Rewriting
