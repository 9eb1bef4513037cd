import Residual.Proofs.Arena.Strata
import Residual.Proofs.Grammar.Analyses

/-!
# Nullability

The values of the nullability table are the truth about the empty string, for languages stratum by
stratum: for expressions without cycles always, and for expressions without complements between
cycles as long as no computation stopped at its pass cap.  Even then `true` is never wrong without
complements, and `false` is not if the cap is above the size of the arena.
-/

set_option autoImplicit false

namespace Residual

open Memo Interpretation

namespace Arena

variable {arena before after : Arena} {id root : ExprId} {lang : Language Char} {sense : Sense}

/-! ## The equation of an expression -/

/-- A relation between truth values and conditions that the operators keep holds between the
answer of a nullability equation and the condition for the empty string. -/
theorem nullabilityEquation_related (Related : Bool → Prop → Prop) {Holds : ExprId → Bool → Prop}
    {condition : ExprId → Prop} {answer : Bool} (yes : Related true True) (no : Related false False)
    (or : ∀ {x y p q}, Related x p → Related y q → Related (x || y) (p ∨ q))
    (and : ∀ {x y p q}, Related x p → Related y q → Related (x && y) (p ∧ q))
    (not : (arena.get id).shape = .not () → ∀ {x p}, Related x p → Related (!x) (¬ p))
    (answers : (arena.nullabilityEquation id).Answers Holds answer)
    (operands : ∀ o ∈ (arena.get id).operands, ∀ value, Holds (arena.resolve o) value →
      Related value (condition o)) :
    Related answer ((arena.get id).map condition).nullable := by
  unfold nullabilityEquation at answers
  generalize arena.get id = e at not answers operands
  cases e with
  | alt left right =>
      simp only [Reading.Answers.bind_iff, Reading.Answers.read_iff, Reading.Answers.pure_iff]
        at answers
      obtain ⟨x, holds, y, holds', rfl⟩ := answers
      exact or (operands left (by simp [Expr.operands]) x holds)
        (operands right (by simp [Expr.operands]) y holds')
  | cat first second =>
      simp only [Reading.Answers.bind_iff, Reading.Answers.read_iff, Reading.Answers.pure_iff]
        at answers
      obtain ⟨x, holds, y, holds', rfl⟩ := answers
      exact and (operands first (by simp [Expr.operands]) x holds)
        (operands second (by simp [Expr.operands]) y holds')
  | not lang =>
      simp only [Reading.Answers.bind_iff, Reading.Answers.read_iff, Reading.Answers.pure_iff]
        at answers
      obtain ⟨x, holds, rfl⟩ := answers
      exact not rfl (operands lang (by simp [Expr.operands]) x holds)
  | plus lang =>
      exact operands lang (by simp [Expr.operands]) answer (Reading.Answers.read_iff.mp answers)
  | rep lang count =>
      rcases count with (_ | times) | _
      case rep.finite.succ =>
        exact operands lang (by simp [Expr.operands]) answer (Reading.Answers.read_iff.mp answers)
      all_goals
        obtain rfl := Reading.Answers.pure_iff.mp answers
        exact yes
  | any | empty | opt _ | star _ =>
      obtain rfl := Reading.Answers.pure_iff.mp answers
      exact yes
  | nil | char _ | range _ _ | token _ =>
      obtain rfl := Reading.Answers.pure_iff.mp answers
      exact no

/-- Answers from values that are right are right. -/
theorem eq_true_iff_of_answers {Holds : ExprId → Bool → Prop} {L : ExprId → Language Char}
    {answer : Bool} (answers : (arena.nullabilityEquation id).Answers Holds answer)
    (operands : ∀ o ∈ (arena.get id).operands, ∀ value, Holds (arena.resolve o) value →
      (value = true ↔ [] ∈ L o)) :
    answer = true ↔ [] ∈ ((arena.get id).map L).language := by
  rw [Expr.nil_mem_language]
  exact nullabilityEquation_related (fun value condition => (value = true ↔ condition))
    (by simp) (by simp) (by grind) (by grind) (by grind) answers operands

/-- Without complements answers from values that miss nothing miss nothing. -/
theorem eq_true_of_answers {Holds : ExprId → Bool → Prop} {condition : ExprId → Prop}
    {answer : Bool} (answers : (arena.nullabilityEquation id).Answers Holds answer)
    (here : (arena.get id).shape ≠ .not ())
    (operands : ∀ o ∈ (arena.get id).operands, ∀ value, Holds (arena.resolve o) value →
      condition o → value = true)
    (nullable : ((arena.get id).map condition).nullable) : answer = true :=
  nullabilityEquation_related (fun value condition => condition → value = true)
    (fun _ => rfl) nofun (by grind) (by grind) (fun complement => absurd complement here) answers
    operands nullable

/-- New slots change no nullability equation. -/
theorem nullabilityEquation_extends (extending : before.Extends after)
    (wellFormed : before.WellFormed) (inside : id.number < before.size) :
    before.nullabilityEquation id = after.nullabilityEquation id := by
  have operands : ∀ o ∈ (before.get id).operands, before.resolve o = after.resolve o :=
    fun o member => (extending.resolve wellFormed (wellFormed.operand_lt_of_get member)).symm
  unfold nullabilityEquation
  rw [extending.get wellFormed inside]
  generalize before.get id = e at operands
  cases e with
  | alt x y | cat x y =>
      simp only [operands x (by simp [Expr.operands]), operands y (by simp [Expr.operands])]
  | not x | plus x => simp only [operands x (by simp [Expr.operands])]
  | rep x count =>
      match count with
      | .finite 0 | .infinite => rfl
      | .finite (times + 1) => exact congrArg Reading.read (operands x (by simp [Expr.operands]))
  | _ => rfl

/-- A nullability equation always asks for the same operands. -/
theorem nullabilityEquation_asks (wellFormed : arena.WellFormed) :
    (arena.nullabilityEquation id).Asks fun other =>
      ((arena.nullabilityEquation id).Needs other ∧ arena.Child id other) ∧ other ∈ arena.ids := by
  have below : ∀ o ∈ (arena.get id).operands,
      arena.Child id (arena.resolve o) ∧ arena.resolve o ∈ arena.ids := fun o member =>
    ⟨mem_operands_iff.mpr ⟨o, member, rfl⟩,
      mem_ids.mpr (wellFormed.resolve_lt (wellFormed.operand_lt_of_get member))⟩
  unfold nullabilityEquation
  generalize arena.get id = e at below
  cases e with
  | alt x y | cat x y =>
      obtain ⟨child, inside⟩ := below x (by simp [Expr.operands])
      obtain ⟨child', inside'⟩ := below y (by simp [Expr.operands])
      refine .bind (.read ⟨⟨.bind_left _ (.read _), child⟩, inside⟩) fun _ => ?_
      refine .bind (.read ⟨⟨.bind_right _ fun _ => .bind_left _ (.read _), child'⟩, inside'⟩)
        fun _ => ?_
      exact .pure _
  | not x =>
      obtain ⟨child, inside⟩ := below x (by simp [Expr.operands])
      exact .bind (.read ⟨⟨.bind_left _ (.read _), child⟩, inside⟩) fun _ => .pure _
  | plus x =>
      obtain ⟨child, inside⟩ := below x (by simp [Expr.operands])
      exact .read ⟨⟨.read _, child⟩, inside⟩
  | rep x count =>
      match count with
      | .finite 0 | .infinite => exact .pure _
      | .finite (times + 1) =>
          obtain ⟨child, inside⟩ := below x (by simp [Expr.operands])
          exact .read ⟨⟨.read _, child⟩, inside⟩
  | any | empty | opt _ | star _ | nil | char _ | range _ _ | token _ => exact .pure _

/-! ## The system of all equations -/

/-- What a nullability table may say on the way to its values.  Without cycles it is the truth. -/
def NullableBound (arena : Arena) (id : ExprId) (value : Bool) : Prop :=
  ∀ lang, arena.Stratified id lang →
    (arena.GroundedComplements id → value = true → [] ∈ lang) ∧
      (arena.Acyclic id → [] ∈ lang → value = true)

theorem nullableBound_resolve (wellFormed : arena.WellFormed) {value : Bool} :
    arena.NullableBound (arena.resolve id) value ↔ arena.NullableBound id value := by
  simp [NullableBound, wellFormed]

theorem nullableBound_of_answers (wellFormed : arena.WellFormed) {value : Bool}
    (answers : (arena.nullabilityEquation id).Answers arena.NullableBound value) :
    arena.NullableBound id value := by
  intro lang stratified
  obtain ⟨L, below, rfl⟩ := wellFormed.exists_stratified_operands stratified
  have exact : arena.Acyclic id → (value = true ↔ [] ∈ ((arena.get id).map L).language) := by
    intro acyclic
    refine eq_true_iff_of_answers answers fun o member value bound => ?_
    have acyclic := wellFormed.acyclic_operand member acyclic
    obtain ⟨sound, complete⟩ := (nullableBound_resolve wellFormed).mp bound (L o) (below o member)
    exact ⟨sound (wellFormed.groundedComplements_of_acyclic acyclic), complete acyclic⟩
  refine ⟨fun grounded isTrue => ?_, fun acyclic => (exact acyclic).mpr⟩
  by_cases complement : (arena.get id).shape = .not ()
  · exact (exact (wellFormed.acyclic_of_complement grounded complement)).mp isTrue
  · rw [Expr.nil_mem_language]
    refine nullabilityEquation_related (fun value condition => value = true → condition)
      (fun _ => trivial) nofun (by grind) (by grind) (fun isNot => absurd isNot complement) answers
      (fun o member value bound => ?_) isTrue
    obtain ⟨sound, _⟩ := (nullableBound_resolve wellFormed).mp bound (L o) (below o member)
    exact sound (wellFormed.groundedComplements_operand member grounded)

/-- The nullability equations of an arena. -/
def nullabilitySystem (arena : Arena) (wellFormed : arena.WellFormed) :
    EquationSystem ExprId Bool where
  equation := arena.nullabilityEquation
  bottom := fun _ => false
  keys := arena.ids
  Asks id other := (arena.nullabilityEquation id).Needs other ∧ arena.Child id other
  Bound := arena.NullableBound
  asks _ _ := nullabilityEquation_asks wellFormed
  bottom_bound _ _ cycle _ _ := by
    have cycle := Relation.TransGen.mono (p := arena.Child) (fun _ _ asks => asks.2) _ _ cycle
    exact ⟨fun _ => nofun, fun acyclic => absurd cycle (wellFormed.not_cyclic acyclic)⟩
  equation_bound _ _ _ answers := nullableBound_of_answers wellFormed answers

theorem nullabilitySystem_isStatic (wellFormed : arena.WellFormed) :
    (arena.nullabilitySystem wellFormed).IsStatic :=
  fun _ _ _ asks => asks.1

/-! ## Approximations -/

/-- The expressions whose operators have the empty string if the languages of `known` have it. -/
def nullableStep (arena : Arena) : Set ExprId →o Set ExprId where
  toFun known := {id | id ∈ arena.ids ∧ (arena.get id).shape ≠ .not () ∧
    ((arena.get id).map (· ∈ known)).nullable}
  monotone' _ _ below _ member :=
    ⟨member.1, member.2.1, Expr.nullable_mono member.2.1 (fun _ _ known => below known) member.2.2⟩

/-- The expressions that are known to have the empty string after some steps. -/
def nullableWithin (arena : Arena) (steps : Nat) : Set ExprId :=
  arena.nullableStep^[steps] ⊥

theorem nullableWithin_succ (steps : Nat) :
    arena.nullableWithin (steps + 1) = arena.nullableStep (arena.nullableWithin steps) :=
  Function.iterate_succ_apply' arena.nullableStep steps ⊥

theorem nullableWithin_mono {steps later : Nat} (fewer : steps ≤ later) :
    arena.nullableWithin steps ⊆ arena.nullableWithin later :=
  arena.nullableStep.monotone.monotone_iterate_of_le_map bot_le fewer

theorem nullableWithin_resolve (wellFormed : arena.WellFormed) {steps : Nat}
    (member : id ∈ arena.nullableWithin steps) : arena.resolve id ∈ arena.nullableWithin steps := by
  cases steps with
  | zero => exact member
  | succ steps =>
      rw [nullableWithin_succ] at member ⊢
      obtain ⟨inside, here, nullable⟩ := member
      refine ⟨mem_ids.mpr (wellFormed.resolve_lt (mem_ids.mp inside)), ?_, ?_⟩
      · rwa [wellFormed.get_resolve]
      · rwa [wellFormed.get_resolve]

theorem nil_mem_least_of_nullableWithin (wellFormed : arena.WellFormed) {steps : Nat}
    (member : id ∈ arena.nullableWithin steps) : [] ∈ words.least arena id := by
  induction steps generalizing id with
  | zero => exact member.elim
  | succ steps inductionHypothesis =>
      rw [nullableWithin_succ] at member
      obtain ⟨_, here, nullable⟩ := member
      rw [wellFormed.least_words here, Expr.nil_mem_language]
      exact Expr.nullable_mono here (fun _ _ known => inductionHypothesis known) nullable

/-- As many steps as there are slots find all expressions with the empty string. -/
theorem nullableWithin_of_nil_mem_least (wellFormed : arena.WellFormed) {steps : Nat}
    (enough : arena.size ≤ steps) (member : [] ∈ words.least arena id) :
    id ∈ arena.nullableWithin steps := by
  have closed := arena.nullableStep.map_lfp
  have found : id ∈ arena.nullableStep.lfp := by
    let values : ExprId → Language Char := fun id =>
      {word | word = [] → id ∈ arena.nullableStep.lfp}
    refine words.least_le values ?_ ?_ id member rfl
    · intro id e found
      refine Languages.le_of_forall_mem fun word member isNil => ?_
      subst isNil
      have sameGet : arena.get id = e := get_of_stands (stands_of_expr found)
      by_cases complement : e.shape = .not ()
      · cases e with
        | not lang => exact (Language.notMem_zero _ member).elim
        | _ => cases complement
      · rw [words_apply (by rwa [Expr.shape_map]), Expr.nil_mem_language] at member
        rw [← closed]
        refine ⟨mem_ids.mpr (lt_size_of_slot? found), by rwa [sameGet], ?_⟩
        rw [sameGet]
        exact Expr.nullable_mono complement (fun o _ inBoth => inBoth.1 rfl) member
    · intro id target found
      refine Languages.le_of_forall_mem fun word member isNil => ?_
      have sameGet : arena.get id = arena.get target := by
        rw [← wellFormed.get_resolve id, wellFormed.resolve_link found, wellFormed.get_resolve]
      have targetFound : target ∈ arena.nullableStep.lfp := member.1 isNil
      rw [← closed] at targetFound ⊢
      refine ⟨mem_ids.mpr (lt_size_of_slot? found), ?_, ?_⟩
      · rw [sameGet]
        exact targetFound.2.1
      · rw [sameGet]
        exact targetFound.2.2
  refine nullableWithin_mono (arena.card_ids_le.trans enough) ?_
  exact lfp_le_iterate_card arena.nullableStep arena.ids (fun _ _ member => member.1) found

/-! ## Tables -/

/-- The settled values of a nullability table are right in its arena. -/
structure NullabilitySound (arena : Arena) (maxPasses : Nat) (table : Table ExprId Bool) :
    Prop where
  idle : ∀ id : ExprId, table.pending[id]? = none
  strategy_eq : table.strategy = .iterate maxPasses
  inside : ∀ {id : ExprId} {value : Bool}, table.settled[id]? = some value →
    id.number < arena.size
  bound : ∀ {id : ExprId} {value : Bool}, table.settled[id]? = some value →
    arena.NullableBound id value
  exact : table.truncated = false → ∀ {id : ExprId} {value : Bool} {lang : Language Char},
    table.settled[arena.resolve id]? = some value → arena.Layered id → arena.Stratified id lang →
      (value = true ↔ [] ∈ lang)
  within : arena.size < maxPasses → ∀ {id : ExprId} {value : Bool},
    table.settled[id]? = some value → arena.ComplementFree id → [] ∈ words.least arena id →
      value = true

variable {maxPasses : Nat}

theorem NullabilitySound.empty (maxPasses : Nat) :
    arena.NullabilitySound maxPasses (.empty (.iterate maxPasses)) :=
  ⟨by simp, rfl, by simp, by simp, by simp, by simp⟩

theorem NullabilitySound.iterates {table : Table ExprId Bool}
    (sound : arena.NullabilitySound maxPasses table) : table.strategy.iterates = true := by
  rw [sound.strategy_eq]
  rfl

theorem NullabilitySound.extends {table : Table ExprId Bool}
    (sound : before.NullabilitySound maxPasses table) (extending : before.Extends after)
    (wellFormed : before.WellFormed) (wellFormed' : after.WellFormed) :
    after.NullabilitySound maxPasses table where
  idle := sound.idle
  strategy_eq := sound.strategy_eq
  inside found := extending.grows.lt_size (sound.inside found)
  bound {id value} found lang stratified := by
    have inside := sound.inside found
    rw [extending.groundedComplements_iff wellFormed inside, extending.acyclic_iff wellFormed inside]
    exact sound.bound found lang
      ((extending.stratified_iff wellFormed inside wellFormed').mp stratified)
  exact complete {id value lang} found layered stratified := by
    have inside := sound.inside found
    -- a new link may lead to an earlier slot
    rw [← wellFormed'.layered_resolve, extending.layered_iff wellFormed inside] at layered
    rw [← wellFormed'.stratified_resolve, extending.stratified_iff wellFormed inside wellFormed']
      at stratified
    have resolved := extending.resolve wellFormed inside
    rw [wellFormed'.resolve_resolve] at resolved
    rw [resolved] at found
    exact sound.exact complete found layered stratified
  within enough {id value} found free member := by
    have inside := sound.inside found
    rw [words.least_extends extending wellFormed inside] at member
    refine sound.within (extending.grows.size_le.trans_lt enough) found ?_ member
    exact (extending.throughout_iff wellFormed wellFormed' inside nofun).mp free

/-- A settled value is right about what an expression means, if the table can be relied on. -/
theorem NullabilitySound.eq_true_iff_of_means {table : Table ExprId Bool} {value : Bool}
    (sound : arena.NullabilitySound maxPasses table) (wellFormed : arena.WellFormed)
    (found : table.settled[arena.resolve id]? = some value) (trusts : table.Trusts sense)
    (means : arena.Means sense id lang) : value = true ↔ [] ∈ lang := by
  have stratified := wellFormed.stratified_of_speaks (wellFormed.speaks_of_means means)
  cases sense with
  | structural =>
      have acyclic := wellFormed.acyclic_of_denotes means
      obtain ⟨isSound, isComplete⟩ :=
        (nullableBound_resolve wellFormed).mp (sound.bound found) lang stratified
      exact ⟨isSound (wellFormed.groundedComplements_of_acyclic acyclic), isComplete acyclic⟩
  | least => exact sound.exact (trusts rfl) found (wellFormed.layered_of_means means) stratified

/-- Without complements `true` is never wrong. -/
theorem NullabilitySound.nil_mem_least {table : Table ExprId Bool}
    (sound : arena.NullabilitySound maxPasses table) (wellFormed : arena.WellFormed)
    (found : table.settled[id]? = some true) (free : arena.ComplementFree id) :
    [] ∈ words.least arena id := by
  have means : arena.Means .least id (words.least arena id) := ⟨free, rfl⟩
  have stratified := wellFormed.stratified_of_speaks (wellFormed.speaks_of_means means)
  exact (sound.bound found _ stratified).1 (groundedComplements_of_complementFree free) rfl

/-- Every pass finds what one more step finds, also while other values keep changing. -/
theorem NullabilitySound.rising {table : Table ExprId Bool}
    (sound : arena.NullabilitySound maxPasses table) (wellFormed : arena.WellFormed)
    (enough : arena.size < maxPasses) :
    (arena.nullabilitySystem wellFormed).Rising table fun steps id value =>
      arena.ComplementFree id → id ∈ arena.nullableWithin steps → value = true where
  zero := fun _ _ _ member => member.elim
  weaken := fun above free member => above free (nullableWithin_mono (Nat.le_succ _) member)
  settled := fun found _ free member =>
    sound.within enough found free (nil_mem_least_of_nullableWithin wellFormed member)
  step := by
    intro steps id value _ answers free member
    obtain ⟨here, below⟩ := wellFormed.complementFree_iff.mp free
    rw [nullableWithin_succ] at member
    refine eq_true_of_answers answers here ?_ member.2.2
    intro o inOperands told above known
    exact above (wellFormed.throughout_resolve.mpr (below o inOperands))
      (nullableWithin_resolve wellFormed known)

/-! ## What an evaluation settles -/

section Settled

variable {base final : Table ExprId Bool} {value : Bool} (wellFormed : arena.WellFormed)
  (sound : arena.NullabilitySound maxPasses base)
  (settles : (arena.nullabilitySystem wellFormed).Settles base root value final)

include sound settles

theorem bound_of_settles {value : Bool} (found : final.settled[id]? = some value) :
    arena.NullableBound id value := by
  rcases settles.new found with wasThere | ⟨_, bound, _⟩
  · exact sound.bound wasThere
  · exact bound

section Complete

variable (complete : final.truncated = false)

include complete

/-- If no computation stopped at the cap then a settled value was right before, or it answers its
equation from settled values. -/
theorem exact_or_answers {value : Bool} (layered : arena.Layered id)
    (found : final.settled[arena.resolve id]? = some value) :
    (∀ lang, arena.Stratified id lang → (value = true ↔ [] ∈ lang)) ∨
      (arena.nullabilityEquation id).Answers (fun other told => final.settled[other]? = some told)
        value := by
  have completeBefore : base.truncated = false := by
    by_contra truncated
    simp [settles.truncated (by simpa using truncated)] at complete
  rcases settles.new found with wasThere | ⟨_, _, answers⟩
  · exact .inl fun lang => sound.exact completeBefore wasThere layered
  · right
    have sameEquation : arena.nullabilityEquation (arena.resolve id) =
        arena.nullabilityEquation id := by
      unfold nullabilityEquation
      rw [wellFormed.get_resolve]
    rw [← sameEquation]
    exact answers (.inl ⟨settles.strategy_eq ▸ sound.iterates, complete⟩)

/-- No expression whose complements are above no cycles is missed. -/
theorem ne_false_of_nil_mem (grounded : arena.GroundedComplements id)
    (stratified : arena.Stratified id lang) (member : [] ∈ lang) :
    final.settled[arena.resolve id]? ≠ some false := by
  obtain ⟨lower, below⟩ := stratified
  let bound : ExprId → Language Char := fun n =>
    {word | word ∈ arena.stratum lower n ∧ (word = [] → final.settled[n]? ≠ some false)}
  suffices arena.stratum lower id ≤ bound (arena.resolve id) from (this member).2 rfl
  have stratified : ∀ {n}, arena.Reaches id n → arena.Stratified n (arena.stratum lower n) :=
    fun reaches => .intro lower fun m onward => below m (wellFormed.reaches_trans reaches onward)
  refine stratum_le wellFormed (fun n reaches complement => ?_) (fun n reaches here => ?_)
  · rw [← stratum_of_complement complement]
    refine Languages.le_of_forall_mem fun word member => ⟨member, ?_⟩
    rintro rfl found
    have isTrue := (bound_of_settles wellFormed sound settles found _ (stratified reaches)).2
      (grounded n reaches complement) member
    exact absurd isTrue (by simp)
  · refine Languages.le_of_forall_mem fun word member => ?_
    have inStratum : word ∈ arena.stratum lower n := by
      rw [stratum_of_not_complement here]
      refine language_map_mono here (fun o _ => Languages.le_of_forall_mem fun word member => ?_)
        member
      have inStratum : word ∈ arena.stratum lower (arena.resolve o) := member.1
      rwa [wellFormed.stratum_resolve] at inStratum
    refine ⟨inStratum, ?_⟩
    rintro rfl found
    have layered : arena.Layered n := wellFormed.layered_of_groundedComplements fun m onward =>
      grounded m (wellFormed.reaches_trans reaches onward)
    rw [← wellFormed.resolve_of_reaches reaches] at found
    rcases exact_or_answers wellFormed sound settles complete layered found with exact | answers
    · exact absurd ((exact _ (stratified reaches)).mpr inStratum) (by simp)
    · rw [Expr.nil_mem_language] at member
      refine absurd (eq_true_of_answers answers here ?_ member) (by simp)
      intro o inOperands told known inBound
      cases told with
      | true => rfl
      | false => exact absurd known (inBound.2 rfl)

/-- If no complement is between two cycles then the settled values are right. -/
theorem exact_of_settles (layered : arena.Layered id) {value : Bool}
    (stratified : arena.Stratified id lang)
    (found : final.settled[arena.resolve id]? = some value) : value = true ↔ [] ∈ lang := by
  -- what is not on a cycle is right if its operands are, and on the cycles `bound` is enough
  have accessible := wellFormed.acc_of_irrefl id
    (fun y x => ¬ arena.GroundedComplements x ∧ Relation.TransGen arena.Child x y)
    (fun ⟨_, second⟩ ⟨cyclic, first⟩ => ⟨cyclic, first.trans second⟩)
    (fun x reaches ⟨cyclic, cycle⟩ => cyclic (layered x reaches cycle))
    (fun reaches ⟨_, after⟩ => reaches.trans after.to_reflTransGen)
  generalize start : arena.resolve id = x at accessible
  induction accessible generalizing id lang value with
  | intro x _ inductionHypothesis =>
      by_cases grounded : arena.GroundedComplements id
      · have bound := bound_of_settles wellFormed sound settles found
        rw [nullableBound_resolve wellFormed] at bound
        refine ⟨(bound _ stratified).1 grounded, fun member => ?_⟩
        have notFalse := ne_false_of_nil_mem wellFormed sound settles complete grounded stratified
          member
        cases value with
        | true => rfl
        | false => exact absurd found notFalse
      · rcases exact_or_answers wellFormed sound settles complete layered found with exact | answers
        · exact exact lang stratified
        · obtain ⟨L, below, rfl⟩ := wellFormed.exists_stratified_operands stratified
          refine eq_true_iff_of_answers answers fun o member told known => ?_
          refine inductionHypothesis (arena.resolve o) ⟨?_, .single ?_⟩
            (wellFormed.layered_operand member layered) (below o member) known rfl
          · rwa [← start, wellFormed.groundedComplements_resolve]
          · rw [← start]
            change _ ∈ arena.operands _
            rw [wellFormed.operands_resolve]
            exact mem_operands_iff.mpr ⟨o, member, rfl⟩

end Complete

/-- With more passes than there are slots, every value is right. -/
theorem true_of_nullableWithin (enough : arena.size < maxPasses) {id : ExprId} {value : Bool}
    (found : final.settled[id]? = some value) (free : arena.ComplementFree id)
    (member : id ∈ arena.nullableWithin maxPasses) : value = true := by
  have passes : base.strategy.repetitions + 1 = maxPasses := by
    rw [sound.strategy_eq]
    exact Nat.sub_add_cancel (Nat.one_le_of_lt enough)
  have above := settles.approximates (sound.rising wellFormed enough) found
  rw [passes] at above
  exact above free member

/-- An evaluation keeps the table right. -/
theorem NullabilitySound.of_settles : arena.NullabilitySound maxPasses final where
  idle := settles.idle
  strategy_eq := settles.strategy_eq.trans sound.strategy_eq
  inside found := by
    rcases settles.new found with wasThere | ⟨inKeys, _⟩
    · exact sound.inside wasThere
    · exact mem_ids.mp inKeys
  bound := bound_of_settles wellFormed sound settles
  exact complete _ _ _ found layered stratified :=
    exact_of_settles wellFormed sound settles complete layered stratified found
  within enough _ _ found free member := true_of_nullableWithin wellFormed sound settles enough
    found free (nullableWithin_of_nil_mem_least wellFormed enough.le member)

end Settled

end Arena

namespace Grammar

variable {grammar : Grammar} {id : ExprId}

theorem nullability_isField : Tables.IsField Tables.nullability
    fun f tables => { tables with nullability := f tables.nullability } :=
  ⟨fun _ _ => rfl, fun _ _ _ => rfl, fun _ => rfl⟩

/-- Nullability is settled in its table, by the equations of an arena that the present one
extends. -/
theorem yields_computeNullable_settles {base : Arena} {maxPasses : Nat}
    (wellFormed : base.WellFormed) (extending : base.Extends grammar.arena)
    (sound : base.NullabilitySound maxPasses grammar.tables.nullability)
    (inside : id.number < base.size) :
    (computeNullable id).Yields grammar fun value after =>
      Aside (fun f tables => { tables with nullability := f tables.nullability }) grammar after ∧
        (base.nullabilitySystem wellFormed).Settles grammar.tables.nullability (base.resolve id)
          value after.tables.nullability := by
  unfold computeNullable
  simp only [Eval.yields_bind, Eval.yields_get]
  have enough : base.ids.card < grammar.arena.size + 1 :=
    Nat.lt_succ_of_le (base.card_ids_le.trans extending.grows.size_le)
  rw [extending.resolve wellFormed inside]
  exact yields_analysis_static nullability_isField
    (fun id inKeys => Arena.nullabilityEquation_extends extending wellFormed (Arena.mem_ids.mp inKeys))
    rfl (Arena.nullabilitySystem_isStatic wellFormed) sound.bound sound.idle
    (Arena.mem_ids.mpr (wellFormed.resolve_lt inside)) enough

/-- Nullability is answered by a settled value of the table, which stays right for the expressions
of an arena that the present one extends. -/
theorem yields_computeNullable {base : Arena} {maxPasses : Nat} (wellFormed : base.WellFormed)
    (extending : base.Extends grammar.arena)
    (sound : base.NullabilitySound maxPasses grammar.tables.nullability)
    (inside : id.number < base.size) :
    (computeNullable id).Yields grammar fun value after =>
      (∃ nullability, after.tables = { grammar.tables with nullability } ∧
        base.NullabilitySound maxPasses nullability ∧
        (grammar.tables.nullability.truncated = true → nullability.truncated = true) ∧
        (base.Grounded (base.resolve id) → nullability.truncated = true →
          grammar.tables.nullability.truncated = true) ∧
        nullability.settled[base.resolve id]? = some value) ∧
      after.config = grammar.config ∧ after.arena = grammar.arena ∧ after.fault = grammar.fault := by
  refine (yields_computeNullable_settles wellFormed extending sound inside).mono ?_
  rintro value after ⟨⟨config, arena, fault, f, tables⟩, settles⟩
  rw [tables] at settles
  refine ⟨⟨_, tables, sound.of_settles wellFormed settles, settles.truncated, fun grounded => ?_,
    settles.answered⟩, config, arena, fault⟩
  exact settles.truncated_of_acc (Subrelation.accessible (fun asks => asks.2) grounded)

end Grammar

end Residual
