import Residual.Proofs.Grammar.Derivative.Steps
import Residual.Proofs.Grammar.Transformation.Results

/-!
# Derivatives mean left quotients

A derivative has no strings but those of the left quotient by the induction over the history of
its making, and it has them all since the values of the derivatives, with the character put before
them, solve the equations of the originals.
-/

set_option autoImplicit false

namespace Residual

open Interpretation

namespace Arena

variable {arena later : Arena} {senses senses' : Sense → Prop} {id value : ExprId} {c : Char}

/-- The union with `ε` that stands for an optional expression. -/
theorem WellFormed.throughout_option (wellFormed : arena.WellFormed) {kind : Expr Unit → Prop}
    {lang : ExprId} (stands : arena.Stands id (.alt lang .empty)) (alt : kind (.alt () ()))
    (empty : kind .empty) (throughout : arena.Throughout lang kind) : arena.Throughout id kind := by
  refine wellFormed.throughout_iff.mpr ?_
  rw [get_of_stands stands]
  refine ⟨alt, fun o member => ?_⟩
  rcases List.mem_pair.mp member with rfl | rfl
  · exact throughout
  · exact wellFormed.throughout_of_leaf wellFormed.stands_empty rfl empty

/-- The second expression is a derivative of the first one. -/
structure IsDerivative (arena : Arena) (senses : Sense → Prop) (id : ExprId) (c : Char)
    (value : ExprId) : Prop where
  complementFree : arena.Confines (· ≠ .not ()) id value
  counted : arena.Confines Arena.IsCounted id value
  atMost : arena.Counted id → arena.ComplementFree id →
    words.least arena value ≤ (words.least arena id).leftQuotient [c]
  means : arena.Counted id → ∀ sense, senses sense → ∀ lang, arena.Means sense id lang →
    arena.Means sense value (lang.leftQuotient [c])

theorem IsDerivative.extends (isDerivative : arena.IsDerivative senses id c value)
    (extending : arena.Extends later) (wellFormed : arena.WellFormed)
    (wellFormed' : later.WellFormed) (inside : id.number < arena.size)
    (inside' : value.number < arena.size) (fewer : ∀ sense, senses' sense → senses sense) :
    later.IsDerivative senses' id c value where
  complementFree := isDerivative.complementFree.later extending.grows
  counted := isDerivative.counted.later extending.grows
  atMost := by
    unfold ComplementFree Counted
    rw [extending.throughout_iff wellFormed wellFormed' inside ⟨nofun, nofun⟩,
      extending.throughout_iff wellFormed wellFormed' inside nofun,
      words.least_extends extending wellFormed inside,
      words.least_extends extending wellFormed inside']
    exact isDerivative.atMost
  means counted sense trusted lang means := by
    rw [extending.means_iff wellFormed wellFormed' inside']
    exact isDerivative.means
      ((extending.throughout_iff wellFormed wellFormed' inside ⟨nofun, nofun⟩).mp counted) sense
      (fewer sense trusted) lang ((extending.means_iff wellFormed wellFormed' inside).mp means)

theorem IsDerivative.of_resolve
    (isDerivative : arena.IsDerivative senses (arena.resolve id) c value)
    (wellFormed : arena.WellFormed) : arena.IsDerivative senses id c value where
  complementFree := isDerivative.complementFree.of_resolve wellFormed
  counted := isDerivative.counted.of_resolve wellFormed
  atMost counted free := by
    have atMost := isDerivative.atMost (wellFormed.throughout_resolve.mpr counted)
      (wellFormed.throughout_resolve.mpr free)
    rwa [words.least_resolve wellFormed] at atMost
  means counted sense trusted lang means :=
    isDerivative.means (wellFormed.throughout_resolve.mpr counted) sense trusted lang
      (wellFormed.means_resolve.mpr means)

end Arena

namespace Grammar

open Memo Scheme

/-- What is known about the table of the derivatives. -/
structure DerivationSound (grammar : Grammar) : Prop extends DerivativesKept grammar where
  isDerivative : ∀ {key : Derivation} {value : ExprId},
    grammar.tables.derivatives.settled[key]? = some value →
    grammar.arena.IsDerivative grammar.tables.nullability.Trusts key.lang key.c value

variable {base after : Grammar} {c : Char} {faultless : Prop} {root key : Derivation}
  {rootValue value : ExprId} {results : List (Result Derivation)}

section Finished

variable (finished : (derivation base c faultless).Finished root rootValue results after)
  (wellFormed : base.arena.WellFormed) (sound : DerivationSound base)

include finished wellFormed sound

theorem isDerivative_base (settled : base.tables.derivatives.settled[key]? = some value) :
    after.arena.IsDerivative after.tables.nullability.Trusts key.lang key.c value :=
  (sound.isDerivative settled).extends finished.fromBase wellFormed finished.wellFormed
    (sound.settled_lt settled).1 (sound.settled_lt settled).2 fun _ trusted =>
      trusted.of_later finished.later.truncated

/-- A settled value was there before, or it was made by the rules for its key. -/
theorem derivative_cases (settled : after.tables.derivatives.settled[key]? = some value) :
    base.tables.derivatives.settled[key]? = some value ∨
      ∃ arena : Arena, arena.WellFormed ∧ base.arena.Extends arena ∧ arena.Grows after.arena ∧
        key.c = c ∧ base.arena.Derivable faultless arena key.lang ∧
        base.arena.Derives arena (base.arena.IsNullable after.tables.nullability.Trusts)
          (fun id answer => (derivation base c faultless).SettledAs after ⟨id, c⟩ answer) c key.lang
          (after.arena.get key.lang) value := by
  refine (finished.settled_cases (derivation_lawful wellFormed
    fun settled => (sound.settled_lt settled).2) settled).imp_right ?_
  rintro ⟨arena, wellFormed', fromBase, growing, sameChar, derivable, _, derives⟩
  refine ⟨arena, wellFormed', fromBase, growing, sameChar, derivable, ?_⟩
  rwa [derivable.get_eq wellFormed fromBase finished.fromBase growing]

/-! ## Upper bounds -/

omit sound in
/-- Derivatives reach no operators of some kinds that were not reached before. -/
theorem confines_of_settled {kind : Expr Unit → Prop} (onNil : kind .nil)
    (few : ∀ operator, ¬ kind operator → operator = .not () ∨ ¬ Arena.IsCounted operator)
    (settledBound : ∀ {key : Derivation} {value : ExprId},
      base.tables.derivatives.settled[key]? = some value →
      after.arena.Confines kind key.lang value)
    (settled : after.tables.derivatives.settled[key]? = some value) :
    after.arena.Confines kind key.lang value := by
  intro later growing wellFormed' throughout
  let other := flag fun operator => ¬ kind operator
  have reached_iff : ∀ id, other.least later id ↔ ¬ later.Throughout id kind :=
    fun id => wellFormed'.least_flag_iff onNil
  have nothing : other.apply .nil = ⊥ := by
    refine eq_false ?_
    rw [flag_leaf rfl]
    exact not_not.mpr onNil
  have below : other.least later value ≤ other.least later key.lang := by
    refine finished.least_le other (fun key => other.least later key.lang) nothing wellFormed
      growing wellFormed' ?_ ?_ settled
    · intro key value settled
      change other.least later value → other.least later key.lang
      rw [reached_iff, reached_iff, not_imp_not]
      exact settledBound settled later growing wellFormed'
    · intro arena told key value wellFormed'' fromBase growing' rule values tame below
      obtain ⟨_, _, _, derives⟩ := rule
      refine derives.flag_le wellFormed'' wellFormed' growing' few tame
        (fun id answer told => below ⟨id, c⟩ answer told) (fun here => ?_)
        (fun o member reached => ?_)
      · refine (reached_iff key.lang).mpr fun throughout => here ?_
        rcases growing'.get_cases wellFormed'' wellFormed' key.lang with isNil | same
        · rwa [isNil]
        · rw [← same]
          exact (wellFormed'.throughout_iff.mp throughout).1
      · refine (reached_iff key.lang).mpr fun throughout => (reached_iff o).mp reached ?_
        exact (wellFormed'.throughout_iff.mp throughout).2 o
          (growing'.mem_operands wellFormed'' wellFormed' member)
  by_contra reached
  exact (reached_iff key.lang).mp (below ((reached_iff value).mpr reached)) throughout

theorem confines_complements
    (settled : after.tables.derivatives.settled[key]? = some value) :
    after.arena.Confines (· ≠ .not ()) key.lang value :=
  confines_of_settled finished wellFormed nofun (fun _ isNot => .inl (not_not.mp isNot))
    (fun settled => (isDerivative_base finished wellFormed sound settled).complementFree) settled

theorem confines_repetitions (settled : after.tables.derivatives.settled[key]? = some value) :
    after.arena.Confines Arena.IsCounted key.lang value :=
  confines_of_settled finished wellFormed ⟨nofun, nofun⟩ (fun _ uncounted => .inr uncounted)
    (fun settled => (isDerivative_base finished wellFormed sound settled).counted) settled

theorem complementFree_of_derived (free : after.arena.ComplementFree key.lang)
    (settled : after.tables.derivatives.settled[key]? = some value) :
    after.arena.ComplementFree value :=
  confines_complements finished wellFormed sound settled _ (.refl _) finished.wellFormed free

/-- A derivative has only strings that were left over, also if an expression was wrongly said not
to have the empty string. -/
theorem least_derivative_le (free : after.arena.ComplementFree key.lang)
    (isCounted : after.arena.Counted key.lang)
    (settled : after.tables.derivatives.settled[key]? = some value) :
    words.least after.arena value ≤ (words.least after.arena key.lang).leftQuotient [key.c] := by
  let bound : Derivation → Language Char := fun key =>
    {word | after.arena.ComplementFree key.lang → after.arena.Counted key.lang →
      key.c :: word ∈ words.least after.arena key.lang}
  have bound_le : ∀ {id c}, after.arena.ComplementFree id → after.arena.Counted id →
      bound ⟨id, c⟩ ≤ (words.least after.arena id).leftQuotient [c] :=
    fun free isCounted => Languages.le_of_forall_mem fun word member => member free isCounted
  refine le_trans ?_ (bound_le free isCounted)
  refine finished.least_le words bound rfl wellFormed (.refl _) finished.wellFormed ?_ ?_ settled
  · intro key value settled
    refine Languages.le_of_forall_mem fun word member free isCounted => ?_
    exact (isDerivative_base finished wellFormed sound settled).atMost isCounted free member
  · intro arena told key value wellFormed' fromBase growing rule values tame below
    obtain ⟨rfl, derivable, _, derives⟩ := rule
    have finalWellFormed := finished.wellFormed
    have sameGet := derivable.get_eq wellFormed fromBase finished.fromBase growing
    rw [← sameGet] at derives
    refine Languages.le_of_forall_mem fun word member free isCounted => ?_
    obtain ⟨noComplement, freeBelow⟩ := finalWellFormed.complementFree_iff.mp free
    obtain ⟨countedHere, countedBelow⟩ := finalWellFormed.throughout_iff.mp isCounted
    have isLeast := finalWellFormed.least_words noComplement
    have old : ∀ o ∈ (after.arena.get key.lang).operands, o.number < base.arena.size := by
      intro o inOperands
      rw [sameGet] at inOperands
      exact derivable.operand_lt wellFormed fromBase inOperands
    have answered : ∀ {o d}, after.arena.ComplementFree o → after.arena.Counted o →
        told ⟨o, key.c⟩ d → values d ≤ (words.least after.arena o).leftQuotient [key.c] :=
      fun free isCounted isTold => (below _ _ isTold).trans (bound_le free isCounted)
    change key.c :: word ∈ words.least after.arena key.lang
    rw [isLeast, ← Languages.mem_quotient, ← Expr.derivative_map]
    refine derives.words_le wellFormed' growing tame noComplement countedHere ?_ ?_ ?_ ?_ isLeast.le
      member
    · intro o inOperands d isTold
      have sameResolve := growing.resolve_resolve wellFormed' finalWellFormed o
      refine (answered ((Arena.throughout_congr sameResolve).mpr (freeBelow o inOperands))
        ((Arena.throughout_congr sameResolve).mpr (countedBelow o inOperands)) isTold).trans ?_
      exact Languages.quotient_mono (words.least_eq_of_resolve finalWellFormed sameResolve).le
    · intro o e' d found atomic isTold
      have stands := Arena.stands_of_expr (growing.expr found)
      obtain ⟨leaf, noComplement, isCounted⟩ := Expr.leaf_of_atomic atomic
      have sameLanguage : (e'.map fun o => (words.least after.arena o).leftQuotient [key.c]) =
          e'.map (words.least after.arena) := Expr.ext_of_shape (by simp) (by simp [leaf])
      rw [sameLanguage, ← words_apply (by simpa using noComplement),
        ← words.least_of_stands finalWellFormed stands]
      exact answered (finalWellFormed.throughout_of_leaf stands leaf noComplement)
        (finalWellFormed.throughout_of_leaf stands leaf isCounted) isTold
    · intro lang o d inOperands found isTold
      have stands := Arena.stands_of_expr (growing.expr found)
      have isAlt : words.least after.arena o =
          words.least after.arena lang + words.least after.arena .empty :=
        words.least_of_stands finalWellFormed stands
      have isEmpty := (finalWellFormed.means_empty .least).2
      refine (answered (finalWellFormed.throughout_option stands nofun nofun (freeBelow _ inOperands))
        (finalWellFormed.throughout_option stands ⟨nofun, nofun⟩ ⟨nofun, nofun⟩
          (countedBelow _ inOperands)) isTold).trans ?_
      rw [isAlt, isEmpty, Languages.quotient_add, Languages.quotient_one, add_zero]
    · intro o inOperands isNullable
      have inside := old o inOperands
      have free := (finished.fromBase.throughout_iff wellFormed finalWellFormed inside nofun).mp
        (freeBelow o inOperands)
      rw [words.least_extends finished.fromBase wellFormed inside]
      exact isNullable.bound rfl free

/-! ## Meanings -/

section Meanings

variable {sense : Sense} (trusted : after.tables.nullability.Trusts sense)

omit wellFormed sound in
/-- What stands for a settled value means the same. -/
theorem means_of_settledAs {key : Derivation} {answer : ExprId} {lang : Language Char}
    (settledAs : (derivation base c faultless).SettledAs after key answer)
    (means : ∀ value, after.tables.derivatives.settled[key]? = some value →
      after.arena.Means sense value lang) : after.arena.Means sense answer lang := by
  obtain ⟨value, settled, same⟩ := settledAs
  exact finished.wellFormed.means_of_resolve_eq same (means value settled)

include trusted

theorem means_atomic {e : Expr ExprId} {L : ExprId → Language Char} {id : ExprId} {c' : Char}
    (stands : after.arena.Stands id e) (atomic : e.isAtomic = true)
    (settled : after.tables.derivatives.settled[(⟨id, c'⟩ : Derivation)]? = some value) :
    after.arena.Means sense value ((e.map L).language.leftQuotient [c']) := by
  obtain ⟨leaf, noComplement, isCounted⟩ := Expr.leaf_of_atomic atomic
  rcases derivative_cases finished wellFormed sound settled with
    old | ⟨_, _, _, _, sameChar, _, derives⟩
  · refine (isDerivative_base finished wellFormed sound old).means
      (finished.wellFormed.throughout_of_leaf stands leaf isCounted) sense trusted _ ?_
    exact finished.wellFormed.means_of_stands stands (fun _ => noComplement) (by simp [leaf])
  · obtain rfl : c' = c := sameChar
    rw [Arena.get_of_stands stands] at derives
    rw [← Expr.derivative_map]
    exact derives.means_of_atomic atomic finished.wellFormed

/-- An option is derived like its operand. -/
theorem means_option {id lang : ExprId} {c' : Char} {rest : Language Char}
    (isNew : base.arena.size ≤ id.number)
    (found : after.arena.slot? id = some (.expr (.alt lang .empty)))
    (answer : ∀ d, (derivation base c faultless).SettledAs after ⟨after.arena.resolve lang, c'⟩ d →
      after.arena.Means sense d rest)
    (settled : after.tables.derivatives.settled[(⟨id, c'⟩ : Derivation)]? = some value) :
    after.arena.Means sense value rest := by
  have finalWellFormed := finished.wellFormed
  rcases derivative_cases finished wellFormed sound settled with
    old | ⟨arena, wellFormed', fromBase, growing, sameChar, derivable, derives⟩
  · exact absurd (sound.settled_lt old).1 (Nat.not_lt_of_le isNew)
  · obtain rfl : c' = c := sameChar
    have sameGet := Arena.get_of_stands (Arena.stands_of_expr found)
    have resolve_eq : ∀ o ∈ [lang, .empty], arena.resolve o = after.arena.resolve o := by
      intro o member
      have member : o ∈ (arena.get id).operands := by
        rw [← derivable.get_eq wellFormed fromBase finished.fromBase growing, sameGet]
        exact member
      have inside := derivable.operand_lt wellFormed fromBase member
      exact (fromBase.resolve wellFormed inside).trans
        (finished.fromBase.resolve wellFormed inside).symm
    rw [sameGet] at derives
    cases derives with
    | @alt _ _ dl dr _ isLeft isRight isAlt =>
        rw [resolve_eq lang (by simp)] at isLeft
        rw [wellFormed'.resolve_empty] at isRight
        have isNil : after.arena.Means sense dr 0 := by
          refine means_of_settledAs finished isRight fun value settled => ?_
          have means := means_atomic finished wellFormed sound trusted (L := fun _ => 0)
            finalWellFormed.stands_empty rfl settled
          rwa [show (Expr.map (fun _ : ExprId => (0 : Language Char)) .empty).language = 1 from rfl,
            Languages.quotient_one] at means
        have means := finalWellFormed.means_of_related
          (Arena.stands_of_expr (growing.expr isAlt)) (fun _ => nofun) (.alt (answer dl isLeft) isNil)
        rwa [show (Expr.alt rest 0).language = rest + 0 from rfl, add_zero] at means

/-- A value that was made by the rules means the derivative of the operator. -/
theorem means_of_derives {arena : Arena} {L R : ExprId → Language Char}
    (wellFormed' : arena.WellFormed) (fromBase : base.arena.Extends arena)
    (growing : arena.Grows after.arena) (sameChar : key.c = c)
    (derivable : base.arena.Derivable faultless arena key.lang)
    (derives : base.arena.Derives arena (base.arena.IsNullable after.tables.nullability.Trusts)
      (fun id answer => (derivation base c faultless).SettledAs after ⟨id, c⟩ answer) c key.lang
      (after.arena.get key.lang) value)
    (noComplement : sense = .least → (after.arena.get key.lang).shape ≠ .not ())
    (isCounted : Arena.IsCounted (after.arena.get key.lang).shape)
    (operand : ∀ o ∈ (after.arena.get key.lang).operands, after.arena.Means sense o (L o))
    (answer : ∀ o ∈ (after.arena.get key.lang).operands, ∀ d,
      (derivation base c faultless).SettledAs after ⟨after.arena.resolve o, key.c⟩ d →
        after.arena.Means sense d (R o)) :
    after.arena.Means sense value
      (((after.arena.get key.lang).map fun o => ⟨L o, R o⟩).derivative key.c) := by
  have finalWellFormed := finished.wellFormed
  obtain rfl := sameChar
  have sameGet := derivable.get_eq wellFormed fromBase finished.fromBase growing
  have inside : ∀ o ∈ (after.arena.get key.lang).operands, o.number < base.arena.size := by
    intro o member
    rw [sameGet] at member
    exact derivable.operand_lt wellFormed fromBase member
  refine derives.means wellFormed' finalWellFormed growing noComplement isCounted
    (finalWellFormed.means_intro noComplement operand) operand ?_ ?_ ?_ ?_
  · intro o member d told
    have same : arena.resolve o = after.arena.resolve o :=
      (fromBase.resolve wellFormed (inside o member)).trans
        (finished.fromBase.resolve wellFormed (inside o member)).symm
    rw [same] at told
    exact answer o member d told
  · intro o e d found atomic told
    refine means_of_settledAs finished told fun value settled => ?_
    exact means_atomic finished wellFormed sound trusted
      (Arena.stands_of_expr (growing.expr found)) atomic settled
  · intro lang o d member isNew found told
    refine means_of_settledAs finished told fun value settled => ?_
    exact means_option finished wellFormed sound trusted isNew (growing.expr found)
      (answer lang member) settled
  · intro o member answer isNullable
    refine isNullable.exact sense trusted (L o) ?_
    exact (finished.fromBase.means_iff wellFormed finalWellFormed (inside o member)).mp
      (operand o member)

end Meanings

/-- What is left over of the original's strings is in the derivative. -/
theorem least_quotient_le (trusted : after.tables.nullability.Trusts .least)
    (free : after.arena.ComplementFree key.lang) (isCounted : after.arena.Counted key.lang)
    (settled : after.tables.derivatives.settled[key]? = some value) :
    (words.least after.arena key.lang).leftQuotient [key.c] ≤ words.least after.arena value := by
  have finalWellFormed := finished.wellFormed
  -- the derivatives with their characters solve the equations of the originals
  let values : ExprId → Language Char := fun id =>
    {word | ∀ rest (key : Derivation) value, word = key.c :: rest →
      after.tables.derivatives.settled[key]? = some value →
      after.arena.resolve key.lang = after.arena.resolve id → after.arena.ComplementFree key.lang →
      after.arena.Counted key.lang → rest ∈ words.least after.arena value}
  suffices below : ∀ id, words.least after.arena id ≤ values id from
    Languages.le_of_forall_mem fun word member =>
      below key.lang member word key value rfl settled rfl free isCounted
  clear free isCounted settled
  refine words.least_le values ?_ ?_
  · intro id e found
    refine Languages.le_of_forall_mem ?_
    rintro _ member rest key value rfl settled sameResolve free isCounted
    have sameGet : after.arena.get key.lang = e := by
      rw [← finalWellFormed.get_resolve, sameResolve, finalWellFormed.get_resolve,
        Arena.get_of_stands (Arena.stands_of_expr found)]
    rcases derivative_cases finished wellFormed sound settled with
      old | ⟨arena, wellFormed', fromBase, growing, sameChar, derivable, derives⟩
    · have means := (isDerivative_base finished wellFormed sound old).means isCounted .least trusted _
        ⟨free, rfl⟩
      rw [means.2, Languages.mem_quotient, words.least_eq_of_resolve finalWellFormed sameResolve,
        words.least_expr found]
      exact words.apply_map_mono (fun _ _ => inf_le_right) member
    · obtain ⟨noComplement, freeBelow⟩ := finalWellFormed.complementFree_iff.mp free
      obtain ⟨countedHere, countedBelow⟩ := finalWellFormed.throughout_iff.mp isCounted
      let answers : ExprId → Language Char := fun o =>
        {rest | ∀ d, (derivation base c faultless).SettledAs after ⟨after.arena.resolve o, key.c⟩ d →
          rest ∈ words.least after.arena d}
      have answer : ∀ o ∈ (after.arena.get key.lang).operands, ∀ d,
          (derivation base c faultless).SettledAs after ⟨after.arena.resolve o, key.c⟩ d →
          after.arena.Means .least d (answers o) := by
        rintro o inOperands d ⟨value', settled', same⟩
        have free' : after.arena.ComplementFree (after.arena.resolve o) :=
          finalWellFormed.throughout_resolve.mpr (freeBelow o inOperands)
        refine ⟨(Arena.throughout_congr same).mpr
          (complementFree_of_derived finished wellFormed sound free' settled'), ?_⟩
        refine le_antisymm (Languages.le_of_forall_mem ?_)
          (Languages.le_of_forall_mem fun rest member => member d ⟨value', settled', same⟩)
        rintro rest inAnswer d' ⟨value'', settled'', same'⟩
        obtain rfl : value' = value'' := Option.some_inj.mp (settled'.symm.trans settled'')
        rwa [words.least_eq_of_resolve finalWellFormed (same'.trans same.symm)]
      have means := means_of_derives finished wellFormed sound trusted wellFormed' fromBase growing
        sameChar derivable derives (fun _ => noComplement) countedHere (L := words.least after.arena)
        (fun o inOperands => ⟨freeBelow o inOperands, rfl⟩) answer
      rw [means.2]
      rw [words_apply (by simpa [sameGet] using noComplement), ← sameGet, ← Languages.mem_quotient,
        ← Expr.derivative_map] at member
      refine Expr.derivative_mono noComplement (fun _ _ => inf_le_right) (fun o inOperands => ?_) member
      refine Languages.le_of_forall_mem ?_
      rintro rest member d ⟨value', settled', same⟩
      have inValue := member.1 rest ⟨after.arena.resolve o, key.c⟩ value' rfl settled'
        (finalWellFormed.resolve_resolve o)
        (finalWellFormed.throughout_resolve.mpr (freeBelow o inOperands))
        (finalWellFormed.throughout_resolve.mpr (countedBelow o inOperands))
      rwa [words.least_eq_of_resolve finalWellFormed same]
  · intro id target found
    refine Languages.le_of_forall_mem ?_
    rintro _ member rest key value rfl settled sameResolve free isCounted
    rw [finalWellFormed.resolve_link found] at sameResolve
    exact member.1 rest key value rfl settled sameResolve free isCounted

/-- The derivative has the left quotient by structural recursion. -/
theorem denotes_of_derived {lang : Language Char} (denotes : after.arena.Denotes key.lang lang)
    (isCounted : after.arena.Counted key.lang)
    (settled : after.tables.derivatives.settled[key]? = some value) :
    after.arena.Denotes value (lang.leftQuotient [key.c]) := by
  have finalWellFormed := finished.wellFormed
  have trusted : after.tables.nullability.Trusts .structural := nofun
  suffices derived : ∀ (key : Derivation) value, after.tables.derivatives.settled[key]? = some value →
      ∀ id, after.arena.resolve key.lang = after.arena.resolve id →
        after.arena.Counted key.lang → after.arena.Denotes id lang →
        after.arena.Denotes value (lang.leftQuotient [key.c]) from
    derived key value settled key.lang rfl isCounted denotes
  clear denotes isCounted settled
  intro key value settled id sameResolve isCounted denotes
  induction denotes generalizing key value with
  | @intro id L below inductionHypothesis =>
      have sameGet : after.arena.get id = after.arena.get key.lang := by
        rw [← finalWellFormed.get_resolve id, ← sameResolve, finalWellFormed.get_resolve]
      have original : after.arena.Means .structural key.lang ((after.arena.get id).map L).language :=
        finalWellFormed.means_of_resolve_eq sameResolve (.intro L below)
      rcases derivative_cases finished wellFormed sound settled with
        old | ⟨arena, wellFormed', fromBase, growing, sameChar, derivable, derives⟩
      · exact (isDerivative_base finished wellFormed sound old).means isCounted .structural trusted _
          original
      · obtain ⟨countedHere, countedBelow⟩ := finalWellFormed.throughout_iff.mp isCounted
        rw [sameGet] at below inductionHypothesis ⊢
        rw [← Expr.derivative_map]
        refine means_of_derives finished wellFormed sound trusted wellFormed' fromBase growing
          sameChar derivable derives nofun countedHere below fun o inOperands d told => ?_
        refine means_of_settledAs finished told fun value' settled' => ?_
        exact inductionHypothesis o inOperands ⟨after.arena.resolve o, key.c⟩ value' settled'
          (finalWellFormed.resolve_resolve o)
          (finalWellFormed.throughout_resolve.mpr (countedBelow o inOperands))

/-- Every derivative means a left quotient. -/
theorem derivationSound_of_finished : DerivationSound after where
  idle := finished.idle
  singlePass := finished.strategy_eq
  settled_lt {key value} settled := by
    refine ⟨?_, finished.settled_lt (derivation_lawful wellFormed
      fun settled => (sound.settled_lt settled).2) settled⟩
    rcases derivative_cases finished wellFormed sound settled with
      old | ⟨_, _, fromBase, growing, _, derivable, _⟩
    · exact finished.fromBase.grows.lt_size (sound.settled_lt old).1
    · exact growing.lt_size (derivable.lt_size fromBase)
  isDerivative {key value} settled :=
    { complementFree := confines_complements finished wellFormed sound settled
      counted := confines_repetitions finished wellFormed sound settled
      atMost := fun isCounted free =>
        least_derivative_le finished wellFormed sound free isCounted settled
      means := by
        intro isCounted sense trusted lang means
        cases sense with
        | structural => exact denotes_of_derived finished wellFormed sound means isCounted settled
        | least =>
            obtain ⟨free, rfl⟩ := means
            refine ⟨complementFree_of_derived finished wellFormed sound free settled,
              le_antisymm ?_ ?_⟩
            · exact least_derivative_le finished wellFormed sound free isCounted settled
            · exact least_quotient_le finished wellFormed sound trusted free isCounted settled }

end Finished

end Grammar

end Residual
