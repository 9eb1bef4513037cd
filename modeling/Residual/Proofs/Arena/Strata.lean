import Residual.Proofs.Arena.Solutions

/-!
# Languages stratum by stratum

Where no cycle passes through a complement, an expression has its language stratum by stratum: first
the operands of its complements, and then the least solution of its equations, in which the
complements are constants.  For expressions without cycles this is structural recursion, and for
expressions without complements it is the least solution.
-/

set_option autoImplicit false

namespace Residual.Arena

open Interpretation

variable {arena : Arena} {id root : ExprId} {lang lang' : Language Char}
  {lower lower' : ExprId → Language Char}

/-- One step towards the languages of a stratum.  The operands of complements have the languages
`lower`. -/
def stratumStep (arena : Arena) (lower : ExprId → Language Char) :
    (ExprId → Language Char) →o (ExprId → Language Char) where
  toFun L id := (wordsWith ((arena.get id).map lower).language).apply ((arena.get id).map L)
  monotone' _ _ below _ := apply_map_mono _ fun o _ => below o

/-- The least languages with the given ones for the operands of complements. -/
def stratum (arena : Arena) (lower : ExprId → Language Char) : ExprId → Language Char :=
  (arena.stratumStep lower).lfp

/-- The language of an expression stratum by stratum. -/
inductive Stratified (arena : Arena) : ExprId → Language Char → Prop where
  | intro {root : ExprId} (lower : ExprId → Language Char) :
      (∀ id, arena.Reaches root id → (arena.get id).shape = .not () →
        ∀ operand ∈ (arena.get id).operands, Stratified arena operand (lower operand)) →
      Stratified arena root (arena.stratum lower root)

/-! ## One stratum -/

theorem stratum_of_complement (complement : (arena.get id).shape = .not ()) :
    arena.stratum lower id = ((arena.get id).map lower).language := by
  have fixed := congrFun (arena.stratumStep lower).map_lfp id
  refine fixed.symm.trans ?_
  change (wordsWith _).apply ((arena.get id).map _) = _
  generalize arena.get id = e at complement
  cases e with
  | not lang => rfl
  | _ => cases complement

theorem stratum_of_not_complement (here : (arena.get id).shape ≠ .not ()) :
    arena.stratum lower id = ((arena.get id).map (arena.stratum lower)).language := by
  have fixed := congrFun (arena.stratumStep lower).map_lfp id
  exact fixed.symm.trans (wordsWith_apply (by rwa [Expr.shape_map]))

/-- What the operators keep below `root` bounds the languages of a stratum there. -/
theorem stratum_le (wellFormed : arena.WellFormed) {bound : ExprId → Language Char}
    (complement : ∀ id, arena.Reaches root id → (arena.get id).shape = .not () →
      ((arena.get id).map lower).language ≤ bound id)
    (closed : ∀ id, arena.Reaches root id → (arena.get id).shape ≠ .not () →
      ((arena.get id).map fun o => bound (arena.resolve o)).language ≤ bound id) :
    arena.stratum lower root ≤ bound (arena.resolve root) := by
  let values : ExprId → Language Char := fun id =>
    {word | arena.Reaches root (arena.resolve id) → word ∈ bound (arena.resolve id)}
  have below : arena.stratum lower ≤ values := by
    refine OrderHom.lfp_le _ fun id => Languages.le_of_forall_mem fun word member reaches => ?_
    have member : word ∈ (wordsWith ((arena.get id).map lower).language).apply
        ((arena.get id).map values) := member
    rw [← wellFormed.get_resolve id] at member
    by_cases isComplement : (arena.get (arena.resolve id)).shape = .not ()
    · refine complement _ reaches isComplement ?_
      generalize arena.get (arena.resolve id) = e at isComplement member
      cases e with
      | not lang => exact member
      | _ => cases isComplement
    · refine closed _ reaches isComplement ?_
      rw [wordsWith_apply (by rwa [Expr.shape_map])] at member
      refine language_map_mono isComplement (fun o inOperands => ?_) member
      refine Languages.le_of_forall_mem fun word member => member ?_
      exact reaches.tail (mem_operands_iff.mpr ⟨o, inOperands, rfl⟩)
  exact fun word member => below root member (arena.reaches_self root)

namespace WellFormed

variable (wellFormed : arena.WellFormed)

include wellFormed

theorem stratum_resolve (id : ExprId) :
    arena.stratum lower (arena.resolve id) = arena.stratum lower id := by
  have step : ∀ L, arena.stratumStep lower L (arena.resolve id) = arena.stratumStep lower L id := by
    intro L
    change (wordsWith ((arena.get _).map lower).language).apply ((arena.get _).map L) = _
    rw [wellFormed.get_resolve]
    rfl
  unfold stratum
  rw [← OrderHom.map_lfp]
  exact step _

/-- The graph below `root` and the languages of the operands of its complements decide about a
stratum. -/
theorem stratum_le_of_agree {other : Arena} (wellFormed' : other.WellFormed)
    (sameRoot : other.resolve root = arena.resolve root)
    (sameGraph : ∀ n, arena.Reaches root n → other.get n = arena.get n ∧
      ∀ o ∈ (arena.get n).operands, other.resolve o = arena.resolve o)
    (agree : ∀ n, arena.Reaches root n → (arena.get n).shape = .not () →
      ∀ o ∈ (arena.get n).operands, lower o = lower' o) :
    arena.stratum lower root ≤ other.stratum lower' root := by
  rw [← wellFormed'.stratum_resolve, sameRoot]
  refine stratum_le wellFormed (fun n reaches complement => ?_) (fun n reaches here => ?_)
  · obtain ⟨sameGet, _⟩ := sameGraph n reaches
    have same : (arena.get n).map lower = (arena.get n).map lower' :=
      Expr.ext_of_shape (by simp) (by simpa using agree n reaches complement)
    rw [stratum_of_complement (sameGet ▸ complement), sameGet, same]
  · obtain ⟨sameGet, sameResolve⟩ := sameGraph n reaches
    have same : ((arena.get n).map fun o => other.stratum lower' (arena.resolve o)) =
        (arena.get n).map (other.stratum lower') := by
      refine Expr.ext_of_shape (by simp) ?_
      simp only [Expr.operands_map, List.map_inj_left]
      exact fun o member => sameResolve o member ▸ wellFormed'.stratum_resolve o
    rw [stratum_of_not_complement (sameGet ▸ here), sameGet, same]

/-! ## Strata -/

/-- The operands of an expression have languages too, from which its language is made. -/
theorem exists_stratified_operands (stratified : arena.Stratified id lang) :
    ∃ L : ExprId → Language Char, (∀ o ∈ (arena.get id).operands, arena.Stratified o (L o)) ∧
      lang = ((arena.get id).map L).language := by
  obtain ⟨lower, below⟩ := stratified
  by_cases complement : (arena.get id).shape = .not ()
  · refine ⟨lower, ?_, stratum_of_complement complement⟩
    rw [← wellFormed.get_resolve] at complement ⊢
    exact below _ (arena.reaches_self id) complement
  · refine ⟨arena.stratum lower, fun o member => ?_, stratum_of_not_complement complement⟩
    exact .intro lower fun n reaches => below n (wellFormed.reaches_operand member reaches)

theorem stratified_unique (stratified : arena.Stratified id lang)
    (stratified' : arena.Stratified id lang') : lang = lang' := by
  induction stratified generalizing lang' with
  | @intro root lower _ inductionHypothesis =>
      obtain ⟨lower', below'⟩ := stratified'
      have agree : ∀ n, arena.Reaches root n → (arena.get n).shape = .not () →
          ∀ o ∈ (arena.get n).operands, lower o = lower' o := fun n reaches complement o member =>
        inductionHypothesis n reaches complement o member (below' n reaches complement o member)
      have sameGraph : ∀ n, arena.Reaches root n → arena.get n = arena.get n ∧
          ∀ o ∈ (arena.get n).operands, arena.resolve o = arena.resolve o := fun _ _ =>
        ⟨rfl, fun _ _ => rfl⟩
      refine le_antisymm (wellFormed.stratum_le_of_agree wellFormed rfl sameGraph agree)
        (wellFormed.stratum_le_of_agree wellFormed rfl sameGraph ?_)
      exact fun n reaches complement o member => (agree n reaches complement o member).symm

@[simp]
theorem stratified_resolve :
    arena.Stratified (arena.resolve id) lang ↔ arena.Stratified id lang := by
  constructor <;> rintro ⟨lower, below⟩
  · rw [wellFormed.stratum_resolve]
    exact .intro lower fun n reaches => below n (wellFormed.reaches_resolve.mpr reaches)
  · rw [← wellFormed.stratum_resolve]
    exact .intro lower fun n reaches => below n (wellFormed.reaches_resolve.mp reaches)

/-- If no cycle passes through a complement then the strata have an end. -/
theorem exists_stratified (noCycle : ∀ n, arena.Reaches root n → (arena.get n).shape = .not () →
    ¬ Relation.TransGen arena.Child n n) : ∃ lang, arena.Stratified root lang := by
  have accessible := wellFormed.acc_of_irrefl root
    (fun y x => ∃ n, Relation.ReflTransGen arena.Child x n ∧ (arena.get n).shape = .not () ∧
      Relation.TransGen arena.Child n y)
    (fun ⟨_, toLast, _, after⟩ ⟨n, toFirst, complement, between⟩ =>
      ⟨n, toFirst, complement, (between.trans_left toLast).trans after⟩)
    (fun x reaches ⟨n, onward, complement, back⟩ =>
      noCycle n (reaches.trans onward) complement (back.trans_left onward))
    (fun reaches ⟨_, onward, _, after⟩ => (reaches.trans onward).trans after.to_reflTransGen)
  generalize start : arena.resolve root = x at accessible
  clear noCycle
  induction accessible generalizing root with
  | intro x _ inductionHypothesis =>
      have lowerLanguage : ∀ o, (∃ n, arena.Reaches root n ∧ (arena.get n).shape = .not () ∧
          o ∈ (arena.get n).operands) → ∃ lang, arena.Stratified o lang := by
        rintro o ⟨n, reaches, complement, member⟩
        refine inductionHypothesis (arena.resolve o) ⟨n, start ▸ reaches, complement, ?_⟩ rfl
        exact .single (mem_operands_iff.mpr ⟨o, member, rfl⟩)
      choose! lower below using lowerLanguage
      exact ⟨_, .intro lower fun n reaches complement o member =>
        below o ⟨n, reaches, complement, member⟩⟩

/-- Both ways for an expression to have a language are special cases. -/
theorem stratified_of_speaks (speaks : arena.Speaks id lang) : arena.Stratified id lang := by
  rcases speaks with ⟨acyclic, denotes⟩ | ⟨free, generates⟩
  · obtain ⟨lang', stratified⟩ := wellFormed.exists_stratified fun n reaches _ => acyclic n reaches
    suffices same : ∀ lang', arena.Stratified id lang' → lang' = lang from
      same lang' stratified ▸ stratified
    clear acyclic stratified
    induction denotes with
    | @intro id L _ inductionHypothesis =>
        intro lang' stratified
        obtain ⟨L', below, rfl⟩ := wellFormed.exists_stratified_operands stratified
        have same : (arena.get id).map L' = (arena.get id).map L :=
          Expr.ext_of_shape (by simp) (by
            simpa using fun o member => inductionHypothesis o member _ (below o member))
        rw [same]
  · have stratified : arena.Stratified id (arena.stratum (fun _ => 0) id) :=
      .intro _ fun n reaches complement => absurd complement (free n reaches)
    have least : arena.IsLeastSolution id (arena.stratum fun _ => 0) := by
      refine ⟨fun n reaches => ?_, fun L solves n reaches => ?_⟩
      · simp only [wellFormed.stratum_resolve]
        exact stratum_of_not_complement (free n reaches)
      · have resolved := wellFormed.resolve_of_reaches reaches
        rw [← resolved, wellFormed.stratum_resolve]
        exact stratum_le wellFormed
          (fun m below complement =>
            absurd complement (free m (wellFormed.reaches_trans reaches below)))
          (fun m below _ => (solves m (wellFormed.reaches_trans reaches below)).ge)
    obtain rfl : arena.stratum (fun _ => 0) (arena.resolve id) = lang := by
      have generates' : arena.Generates id _ := ⟨_, least, rfl⟩
      rw [wellFormed.generates_iff free] at generates generates'
      exact generates'.symm.trans generates
    rwa [wellFormed.stratum_resolve]

end WellFormed

/-! ## Complements and cycles -/

/-- No cycle can be reached from a complement that can be reached. -/
def GroundedComplements (arena : Arena) (root : ExprId) : Prop :=
  ∀ n, arena.Reaches root n → (arena.get n).shape = .not () → arena.Acyclic n

/-- No complement that can be reached lies on a cycle or between two cycles. -/
def Layered (arena : Arena) (root : ExprId) : Prop :=
  ∀ x, arena.Reaches root x → Relation.TransGen arena.Child x x → arena.GroundedComplements x

theorem groundedComplements_of_complementFree (free : arena.ComplementFree id) :
    arena.GroundedComplements id :=
  fun n reaches complement => absurd complement (free n reaches)

namespace WellFormed

variable (wellFormed : arena.WellFormed) {o : ExprId} (member : o ∈ (arena.get id).operands)

include wellFormed

@[simp]
theorem acyclic_resolve : arena.Acyclic (arena.resolve id) ↔ arena.Acyclic id := by
  simp only [Acyclic, wellFormed.reaches_resolve]

@[simp]
theorem groundedComplements_resolve :
    arena.GroundedComplements (arena.resolve id) ↔ arena.GroundedComplements id := by
  simp only [GroundedComplements, wellFormed.reaches_resolve]

@[simp]
theorem layered_resolve : arena.Layered (arena.resolve id) ↔ arena.Layered id := by
  simp only [Layered, wellFormed.reaches_resolve]

theorem not_cyclic (acyclic : arena.Acyclic id) : ¬ Relation.TransGen arena.Child id id := by
  intro cycle
  obtain ⟨_, _, child⟩ := Relation.TransGen.tail'_iff.mp cycle
  obtain ⟨o, _, rfl⟩ := mem_operands_iff.mp child
  exact acyclic _ (wellFormed.reaches_resolve.mpr (arena.reaches_self o)) cycle

theorem layered_of_groundedComplements (grounded : arena.GroundedComplements id) :
    arena.Layered id :=
  fun _ reaches _ n onward => grounded n (wellFormed.reaches_trans reaches onward)

theorem acyclic_of_complement (grounded : arena.GroundedComplements id)
    (complement : (arena.get id).shape = .not ()) : arena.Acyclic id :=
  wellFormed.acyclic_resolve.mp
    (grounded _ (arena.reaches_self id) (by rwa [wellFormed.get_resolve]))

theorem groundedComplements_of_acyclic (acyclic : arena.Acyclic id) :
    arena.GroundedComplements id :=
  fun _ reaches _ _ onward => acyclic _ (wellFormed.reaches_trans reaches onward)

theorem layered_of_means {sense : Sense} (means : arena.Means sense id lang) :
    arena.Layered id := by
  refine wellFormed.layered_of_groundedComplements ?_
  cases sense with
  | structural =>
      exact wellFormed.groundedComplements_of_acyclic (wellFormed.acyclic_of_denotes means)
  | least => exact groundedComplements_of_complementFree means.1

theorem exists_stratified_of_layered (layered : arena.Layered id) :
    ∃ lang, arena.Stratified id lang := by
  refine wellFormed.exists_stratified fun n reaches complement cycle => ?_
  have here := arena.reaches_self n
  rw [wellFormed.resolve_of_reaches reaches] at here
  exact wellFormed.acyclic_of_complement (layered n reaches cycle) complement n here cycle

include member

theorem acyclic_operand (acyclic : arena.Acyclic id) : arena.Acyclic o :=
  fun n reaches => acyclic n (wellFormed.reaches_operand member reaches)

theorem groundedComplements_operand (grounded : arena.GroundedComplements id) :
    arena.GroundedComplements o :=
  fun n reaches => grounded n (wellFormed.reaches_operand member reaches)

theorem layered_operand (layered : arena.Layered id) : arena.Layered o :=
  fun n reaches => layered n (wellFormed.reaches_operand member reaches)

end WellFormed

/-! ## New slots -/

namespace Extends

variable {before after : Arena} (extending : before.Extends after) (wellFormed : before.WellFormed)
  {x y : ExprId}

include extending wellFormed

theorem child_iff (inside : x.number < before.size) : after.Child x y ↔ before.Child x y := by
  unfold Child
  rw [mem_operands_iff, mem_operands_iff, extending.get wellFormed inside]
  refine exists_congr fun o => and_congr_right fun member => ?_
  rw [extending.resolve wellFormed (wellFormed.operand_lt_of_get member)]

theorem path_iff (inside : x.number < before.size) :
    Relation.ReflTransGen after.Child x y ↔ Relation.ReflTransGen before.Child x y := by
  constructor <;> intro path <;> revert inside
  · induction path using Relation.ReflTransGen.head_induction_on with
    | refl => exact fun _ => .refl
    | head child _ inductionHypothesis =>
        intro inside
        have child := (extending.child_iff wellFormed inside).mp child
        exact .head child (inductionHypothesis (wellFormed.child_lt child))
  · induction path using Relation.ReflTransGen.head_induction_on with
    | refl => exact fun _ => .refl
    | head child _ inductionHypothesis =>
        intro inside
        exact .head ((extending.child_iff wellFormed inside).mpr child)
          (inductionHypothesis (wellFormed.child_lt child))

theorem cycle_iff (inside : x.number < before.size) :
    Relation.TransGen after.Child x x ↔ Relation.TransGen before.Child x x := by
  rw [Relation.TransGen.head'_iff, Relation.TransGen.head'_iff]
  refine exists_congr fun y => ?_
  rw [extending.child_iff wellFormed inside]
  exact and_congr_right fun child => extending.path_iff wellFormed (wellFormed.child_lt child)

section Reachable

variable (inside : root.number < before.size)

include inside

theorem reaches_iff : after.Reaches root id ↔ before.Reaches root id := by
  unfold Reaches
  rw [extending.resolve wellFormed inside]
  exact extending.path_iff wellFormed (wellFormed.resolve_lt inside)

/-- What is said alike about all earlier slots is said alike about all that can be reached. -/
theorem forall_reaches_iff {Holds Holds' : ExprId → Prop}
    (same : ∀ n, n.number < before.size → (Holds' n ↔ Holds n)) :
    (∀ n, after.Reaches root n → Holds' n) ↔ ∀ n, before.Reaches root n → Holds n := by
  refine forall_congr' fun n => ?_
  rw [extending.reaches_iff wellFormed inside]
  exact forall_congr' fun reaches => same n (wellFormed.reaches_lt inside reaches)

theorem acyclic_iff : after.Acyclic root ↔ before.Acyclic root :=
  extending.forall_reaches_iff wellFormed inside fun _ inside =>
    not_congr (extending.cycle_iff wellFormed inside)

theorem groundedComplements_iff :
    after.GroundedComplements root ↔ before.GroundedComplements root := by
  refine extending.forall_reaches_iff wellFormed inside fun n inside => ?_
  rw [extending.get wellFormed inside, extending.acyclic_iff wellFormed inside]

theorem layered_iff : after.Layered root ↔ before.Layered root :=
  extending.forall_reaches_iff wellFormed inside fun _ inside =>
    imp_congr (extending.cycle_iff wellFormed inside)
      (extending.groundedComplements_iff wellFormed inside)

variable (wellFormed' : after.WellFormed)

include wellFormed'

theorem stratum_eq : after.stratum lower root = before.stratum lower root := by
  have sameGraph : ∀ n, before.Reaches root n → after.get n = before.get n ∧
      ∀ o ∈ (before.get n).operands, after.resolve o = before.resolve o := by
    intro n reaches
    have inside := wellFormed.reaches_lt inside reaches
    exact ⟨extending.get wellFormed inside, fun o member =>
      extending.resolve wellFormed (wellFormed.operand_lt_of_get member)⟩
  have sameRoot := extending.resolve wellFormed inside
  refine le_antisymm (wellFormed'.stratum_le_of_agree wellFormed sameRoot.symm ?_
      fun _ _ _ _ _ => rfl)
    (wellFormed.stratum_le_of_agree wellFormed' sameRoot sameGraph fun _ _ _ _ _ => rfl)
  intro n reaches
  obtain ⟨sameGet, sameResolve⟩ :=
    sameGraph n ((extending.reaches_iff wellFormed inside).mp reaches)
  exact ⟨sameGet.symm, fun o member => (sameResolve o (sameGet ▸ member)).symm⟩

theorem stratified_iff : after.Stratified root lang ↔ before.Stratified root lang := by
  constructor <;> intro stratified <;> revert inside
  · induction stratified with
    | @intro root lower _ inductionHypothesis =>
        intro inside
        rw [extending.stratum_eq wellFormed inside wellFormed']
        refine .intro lower fun n reaches complement o member => ?_
        have sameGet := extending.get wellFormed (wellFormed.reaches_lt inside reaches)
        exact inductionHypothesis n ((extending.reaches_iff wellFormed inside).mpr reaches)
          (sameGet ▸ complement) o (sameGet ▸ member) (wellFormed.operand_lt_of_get member)
  · induction stratified with
    | @intro root lower _ inductionHypothesis =>
        intro inside
        rw [← extending.stratum_eq wellFormed inside wellFormed']
        refine .intro lower fun n reaches complement o member => ?_
        have reaches := (extending.reaches_iff wellFormed inside).mp reaches
        rw [extending.get wellFormed (wellFormed.reaches_lt inside reaches)] at complement member
        exact inductionHypothesis n reaches complement o member (wellFormed.operand_lt_of_get member)

end Reachable

end Extends

end Residual.Arena
