import Residual.Proofs.Arena.Definedness
import Residual.Proofs.Grammar.NormalForm.Steps
import Residual.Proofs.Grammar.Transformation.Results

/-!
# Simplification keeps the meaning

A simplified form has no more than the original by the induction over the history of its making,
and no less since the values of the simplified forms solve the equations of the originals.  Both
are said about every later arena, in which references may have been defined.

In none of them has the simplified form an improper repetition, and so it reaches no undefined
reference if the original reaches none.
-/

set_option autoImplicit false

namespace Residual

open Interpretation

namespace Arena

variable {arena later : Arena} {senses senses' : Sense → Prop} {id value : ExprId}

/-- The second expression is a simplified form of the first one. -/
structure IsSimplified (arena : Arena) (senses : Sense → Prop) (id value : ExprId) : Prop where
  means : arena.Keeps senses id value
  narrows : arena.Narrows id value
  counted : arena.Counted value
  defined : arena.Defined id → arena.Defined value

theorem IsSimplified.extends (isSimplified : arena.IsSimplified senses id value)
    (extending : arena.Extends later) (wellFormed : arena.WellFormed)
    (wellFormed' : later.WellFormed) (inside : value.number < arena.size)
    (fewer : ∀ sense, senses' sense → senses sense) : later.IsSimplified senses' id value where
  means := isSimplified.means.later extending.grows fewer
  narrows := isSimplified.narrows.later extending.grows
  counted := (extending.throughout_iff wellFormed wellFormed' inside ⟨nofun, nofun⟩).mpr
    isSimplified.counted
  defined defined := (extending.defined_iff wellFormed inside).mpr
    (isSimplified.defined (extending.defined wellFormed wellFormed' defined))

end Arena

namespace Grammar

open Memo Scheme

/-! ## Upper bounds -/

section Bounds

variable {Meaning : Type} [CompleteLattice Meaning] {inner outer : Interpretation Meaning}
  {senses : Sense → Prop} {base arena later : Arena} {told : ExprId → ExprId → Prop}
  {id value : ExprId} {values bound : ExprId → Meaning}

/-- No rule leads above bounds that are closed under the operators. -/
theorem SimplificationRule.le (reduces : inner.Reduces outer)
    (rule : SimplificationRule senses arena told id value) (inside : id.number < base.size)
    (base_wellFormed : base.WellFormed) (wellFormed : arena.WellFormed)
    (wellFormed' : later.WellFormed) (fromBase : base.Extends arena) (growing : arena.Grows later)
    (closed : ∀ {id e}, base.slot? id = some (.expr e) →
      outer.apply (e.map fun o => bound (base.resolve o)) ≤ bound id)
    (unboundBelow : ∀ {id}, base.slot? id = some (.link none) → inner.least later id ≤ bound id)
    (tame : inner.Tame base arena later values)
    (below : ∀ key answer, told key answer → values answer ≤ bound key) :
    values value ≤ bound id := by
  cases rule with
  | unbound found => exact (tame.le_least id).trans (unboundBelow (by rwa [← fromBase id inside]))
  | never found =>
      have found : base.slot? id = _ := (fromBase id inside).symm.trans found
      have isEmpty := tame.expr (growing.expr wellFormed.empty)
      exact isEmpty.le.trans ((reduces.never _).trans (closed found))
  | @reduce e e' _ found related simplifies =>
      have found : base.slot? id = some (.expr e) := (fromBase id inside).symm.trans found
      refine (simplifies.le reduces wellFormed wellFormed' growing fromBase base_wellFormed inside
        tame).trans (le_trans ?_ (closed found))
      refine outer.monotone (by simpa using related.shape_eq.symm) ?_
      rw [Expr.operands_map, Expr.operands_map, List.forall₂_map_left_iff,
        List.forall₂_map_right_iff]
      refine (Arena.forall₂_mem related.operands).flip.imp fun simple operand told => ?_
      obtain ⟨member, _, told⟩ := told
      rw [← fromBase.resolve base_wellFormed (base_wellFormed.operand_lt found operand member)]
      exact below _ simple told

/-- A least solution is closed under its operators. -/
theorem least_closed (interpretation : Interpretation Meaning) {id : ExprId} {e : Expr ExprId}
    (found : base.slot? id = some (.expr e)) (growing : base.Grows later)
    (wellFormed : base.WellFormed) (wellFormed' : later.WellFormed) :
    interpretation.apply (e.map fun o => interpretation.least later (base.resolve o)) =
      interpretation.least later id := by
  rw [interpretation.least_expr (growing.expr found)]
  congr 2
  funext o
  exact interpretation.least_eq_of_resolve wellFormed'
    (growing.resolve_resolve wellFormed wellFormed' o)

end Bounds

variable {base after : Grammar} {root rootValue key value : ExprId}
  {results : List (Result ExprId)} {later : Arena}

/-- What is known about the table of the simplified forms. -/
structure SimplificationSound (grammar : Grammar) : Prop extends SimplifiedKept grammar where
  isSimplified : ∀ {key value : ExprId}, grammar.tables.simplified.settled[key]? = some value →
    grammar.arena.IsSimplified grammar.tables.equalities.Trusts key value

section Finished

variable (finished : (simplification base).Finished root rootValue results after)
  (wellFormed : base.arena.WellFormed) (sound : SimplificationSound base)
  (growing : after.arena.Grows later) (wellFormed' : later.WellFormed)

include finished

/-- What stands for a settled value still does so later. -/
theorem resolve_eq_of_settledAs (growing : after.arena.Grows later) (wellFormed' : later.WellFormed)
    {answer : ExprId} (same : after.arena.resolve answer = after.arena.resolve value) :
    later.resolve answer = later.resolve value := by
  rw [← growing.resolve_resolve finished.wellFormed wellFormed', same,
    growing.resolve_resolve finished.wellFormed wellFormed']

include wellFormed

/-- A simplified form is bounded if the originals are. -/
theorem least_le_of_closed {Meaning : Type} [CompleteLattice Meaning]
    {inner outer : Interpretation Meaning} (reduces : inner.Reduces outer)
    (growing : after.arena.Grows later) (wellFormed' : later.WellFormed)
    (bound : ExprId → Meaning)
    (settledBound : ∀ key value : ExprId, base.tables.simplified.settled[key]? = some value →
      inner.least later value ≤ bound key)
    (closed : ∀ {id e}, base.arena.slot? id = some (.expr e) →
      outer.apply (e.map fun o => bound (base.arena.resolve o)) ≤ bound id)
    (unboundBelow : ∀ {id}, base.arena.slot? id = some (.link none) →
      inner.least later id ≤ bound id)
    (settled : after.tables.simplified.settled[key]? = some value) :
    inner.least later value ≤ bound key :=
  finished.least_le inner bound reduces.nil wellFormed growing wellFormed' settledBound
    (fun wellFormed'' fromBase growing rule _ tame below =>
      rule.2.le reduces rule.1 wellFormed wellFormed'' wellFormed' fromBase growing closed
        unboundBelow tame below) settled

include sound

theorem isSimplified_base (settled : base.tables.simplified.settled[key]? = some value) :
    after.arena.IsSimplified after.tables.equalities.Trusts key value :=
  (sound.isSimplified settled).extends finished.fromBase wellFormed finished.wellFormed
    (sound.settled_lt settled) fun _ trusted =>
      trusted.of_later finished.later.truncated

omit sound in
/-- A simplified form reaches an improper repetition only through an earlier one or through what
was an unbound link. -/
theorem counted_of_bound (growing : after.arena.Grows later) (wellFormed' : later.WellFormed)
    (bound : ExprId → Prop)
    (settledBound : ∀ key value : ExprId, base.tables.simplified.settled[key]? = some value →
      ¬ later.Counted value → bound key)
    (closed : ∀ {id e}, base.arena.slot? id = some (.expr e) → ∀ o ∈ e.operands,
      bound (base.arena.resolve o) → bound id)
    (unboundBelow : ∀ {id}, base.arena.slot? id = some (.link none) → ¬ later.Counted id → bound id)
    (settled : after.tables.simplified.settled[key]? = some value) (free : ¬ bound key) :
    later.Counted value := by
  let improper := flag fun operator => ¬ Arena.IsCounted operator
  have reached_iff : ∀ id, improper.least later id ↔ ¬ later.Counted id :=
    fun id => wellFormed'.least_flag_iff ⟨nofun, nofun⟩
  have reduces : improper.Reduces (flag fun _ => False) :=
    flag_reduces (fun _ here counted => here counted) nofun
  have below : improper.least later value ≤ bound key := by
    refine least_le_of_closed finished wellFormed reduces growing wellFormed' bound ?_ ?_ ?_ settled
    · exact fun key value settled reached =>
        settledBound key value settled ((reached_iff value).mp reached)
    · intro id e found reached
      rcases flag_map.mp reached with ⟨⟨⟩⟩ | ⟨o, member, there⟩
      exact closed found o member there
    · exact fun found reached => unboundBelow found ((reached_iff _).mp reached)
  by_contra uncounted
  exact free (below ((reached_iff value).mpr uncounted))

theorem counted_of_settled (settled : after.tables.simplified.settled[key]? = some value) :
    after.arena.Counted value := by
  refine counted_of_bound finished wellFormed (.refl _) finished.wellFormed (fun _ => False)
    (fun key value settled uncounted => ?_) (fun _ _ _ there => there) (fun found uncounted => ?_)
    settled id
  · exact uncounted (isSimplified_base finished wellFormed sound settled).counted
  · have unbound := (finished.fromBase _ (Arena.lt_size_of_slot? found)).trans found
    exact uncounted (finished.wellFormed.throughout_of_unbound ⟨nofun, nofun⟩ unbound)

/-- What is defined is simplified to something defined. -/
theorem defined_of_settled (defined : after.arena.Defined key)
    (settled : after.tables.simplified.settled[key]? = some value) : after.arena.Defined value := by
  have finalWellFormed := finished.wellFormed
  refine finalWellFormed.defined_of_counted fun later growing wellFormed' => ?_
  refine counted_of_bound finished wellFormed growing wellFormed'
    (fun id => ¬ after.arena.Defined id) ?_ ?_ ?_ settled (not_not.mpr defined)
  · intro key value settled uncounted defined
    have isSimplified := isSimplified_base finished wellFormed sound settled
    have inside := finished.fromBase.grows.lt_size (sound.settled_lt settled)
    exact uncounted (growing.throughout_of_defined finalWellFormed wellFormed' inside
      (isSimplified.defined defined) isSimplified.counted)
  · intro id e found o member undefined defined
    have sameGet := Arena.get_of_stands (Arena.stands_of_expr (finished.fromBase.grows.expr found))
    have sameResolve := finished.fromBase.grows.resolve_resolve wellFormed finalWellFormed o
    exact undefined ((Arena.defined_congr sameResolve).mpr
      (finalWellFormed.defined_operand defined (by rwa [sameGet])))
  · intro id found _
    have unbound := (finished.fromBase id (Arena.lt_size_of_slot? found)).trans found
    exact Arena.not_defined_of_unbound unbound

include growing wellFormed'

theorem complementFree_of_settled (free : later.ComplementFree key)
    (settled : after.tables.simplified.settled[key]? = some value) :
    later.ComplementFree value := by
  let complement := flag fun operator => ¬ operator ≠ .not ()
  have reached_iff : ∀ id, complement.least later id ↔ ¬ later.ComplementFree id :=
    fun id => wellFormed'.least_flag_iff nofun
  have below : complement.least later value ≤ complement.least later key := by
    refine least_le_of_closed finished wellFormed
      (flag_reduces (fun _ here _ => here) fun _ here => not_not.mp here) growing wellFormed'
      (complement.least later) ?_ ?_ (fun _ => le_rfl) settled
    · intro key value settled
      have isSimplified := isSimplified_base finished wellFormed sound settled
      change complement.least later value → complement.least later key
      rw [reached_iff, reached_iff, not_imp_not]
      exact fun free => (isSimplified.narrows later growing wellFormed' free).1
    · exact fun found => (least_closed complement found
        (finished.fromBase.grows.trans growing) wellFormed wellFormed').le
  by_contra reached
  exact (reached_iff key).mp (below ((reached_iff value).mpr reached)) free

/-- A simplified form has no more strings than the original, also if unions were taken together
whose sides were wrongly called equal. -/
theorem least_le_original (free : later.ComplementFree key)
    (settled : after.tables.simplified.settled[key]? = some value) :
    words.least later value ≤ words.least later key := by
  let bound : ExprId → Language Char := fun id =>
    {word | later.ComplementFree id → word ∈ words.least later id}
  have bound_eq : ∀ {id}, later.ComplementFree id → bound id = words.least later id := by
    intro id free
    ext word
    exact ⟨fun member => member free, fun member _ => member⟩
  rw [← bound_eq free]
  refine least_le_of_closed finished wellFormed words_reduces growing wellFormed' bound ?_ ?_ ?_
    settled
  · intro key value settled
    refine Languages.le_of_forall_mem fun word member free => ?_
    have isSimplified := isSimplified_base finished wellFormed sound settled
    exact (isSimplified.narrows later growing wellFormed' free).2 member
  · intro id e found
    refine Languages.le_of_forall_mem fun word member free => ?_
    have growing := finished.fromBase.grows.trans growing
    have stands := Arena.stands_of_expr (growing.expr found)
    obtain ⟨here, free⟩ := wellFormed'.complementFree_iff.mp free
    rw [Arena.get_of_stands stands] at here free
    rw [← least_closed words found growing wellFormed wellFormed', words_apply (by simpa using here)]
    rw [wordsWith_apply (by simpa using here)] at member
    have sameValues : (e.map fun o => bound (base.arena.resolve o)) =
        e.map fun o => words.least later (base.arena.resolve o) := by
      refine Expr.ext_of_shape (by simp) ?_
      simp only [Expr.operands_map, List.map_inj_left]
      exact fun o member => bound_eq ((Arena.throughout_congr
        (growing.resolve_resolve wellFormed wellFormed' o)).mpr (free o member))
    rwa [sameValues] at member
  · intro id found
    exact Languages.le_of_forall_mem fun word member _ => member

/-- The original has no more strings than a simplified form, if what was called equal is equal. -/
theorem least_original_le (trusted : after.tables.equalities.Trusts .least) (free : later.ComplementFree key)
    (settled : after.tables.simplified.settled[key]? = some value) :
    words.least later key ≤ words.least later value := by
  have lawful := simplification_lawful wellFormed sound.settled_lt
  -- the simplified forms solve the equations of the originals
  let values : ExprId → Language Char := fun id =>
    {word | ∀ key value : ExprId, after.tables.simplified.settled[key]? = some value →
      later.resolve key = later.resolve id → later.ComplementFree key →
      word ∈ words.least later value}
  suffices below : words.least later key ≤ values key from
    below.trans (Languages.le_of_forall_mem fun word member => member key value settled rfl free)
  refine words.least_le values ?_ ?_ key
  · intro id e found
    refine Languages.le_of_forall_mem fun word member key value settled sameResolve free => ?_
    have original : word ∈ words.least later key := by
      rw [words.least_eq_of_resolve wellFormed' sameResolve, words.least_expr found]
      exact words.apply_map_mono (fun _ _ => inf_le_right) member
    have here := (wellFormed'.complementFree_iff.mp free).1
    have below := (wellFormed'.complementFree_iff.mp free).2
    rcases finished.settled_cases lawful settled with
      old | ⟨arena, wellFormed'', fromBase, growing', _, rule⟩
    · have means := (isSimplified_base finished wellFormed sound old).means later growing wellFormed'
        .least trusted _ ⟨free, rfl⟩
      rwa [means.2]
    · have growing'' := growing'.trans growing
      cases rule with
      | unbound _ => exact original
      | never found' =>
          have stands := Arena.stands_of_expr (growing''.expr found')
          rw [wellFormed'.least_words here, Arena.get_of_stands stands] at original
          rw [(wellFormed'.means_empty .least).2]
          exact original
      | @reduce e₀ e' _ found' related simplifies =>
          have found' := growing''.expr found'
          obtain rfl : key = id := by
            rwa [Arena.resolve_of_expr found, Arena.resolve_of_expr found'] at sameResolve
          obtain rfl : e = e₀ := by simpa [found] using found'
          rw [Arena.get_of_stands (Arena.stands_of_expr found)] at here below
          have asked : ∀ {o simple}, o ∈ e.operands →
              (simplification base).SettledAs after (arena.resolve o) simple →
              values o ≤ words.least later simple ∧ later.ComplementFree simple := by
            rintro o simple member ⟨value', settled', sameEnd⟩
            have sameSimple := resolve_eq_of_settledAs finished growing wellFormed' sameEnd
            have sameOperand := growing''.resolve_resolve wellFormed'' wellFormed' o
            have free := (Arena.throughout_congr sameOperand).mpr (below o member)
            refine ⟨Languages.le_of_forall_mem fun word member => ?_,
              (Arena.throughout_congr sameSimple).mpr (complementFree_of_settled finished wellFormed
                sound growing wellFormed' free settled')⟩
            rw [words.least_eq_of_resolve wellFormed' sameSimple]
            exact member _ value' settled' sameOperand free
          have operands := Arena.forall₂_mem related.operands
          have means := simplifies.means wellFormed'' wellFormed' growing'' trusted
            (fun _ => related.shape_eq ▸ here) (E := e'.map (words.least later))
            (.map_self fun simple member => by
              obtain ⟨o, _, inside, _, told⟩ := Arena.exists_related_left operands simple member
              exact ⟨(asked inside told).2, rfl⟩)
          rw [means.2, ← words_apply (by simpa [← related.shape_eq] using here)]
          refine words.monotone (by simpa using related.shape_eq) ?_ member
          rw [Expr.operands_map, Expr.operands_map, List.forall₂_map_left_iff,
            List.forall₂_map_right_iff]
          exact operands.imp fun o simple ⟨inside, _, told⟩ =>
            inf_le_left.trans (asked inside told).1
  · intro id target found
    refine Languages.le_of_forall_mem fun word member key value settled sameResolve free => ?_
    rw [wellFormed'.resolve_link found] at sameResolve
    exact member.1 key value settled sameResolve free

/-- A simplified form has the language of the original by structural recursion. -/
theorem denotes_of_settled {lang : Language Char} (denotes : later.Denotes key lang)
    (settled : after.tables.simplified.settled[key]? = some value) : later.Denotes value lang := by
  have lawful := simplification_lawful wellFormed sound.settled_lt
  have trusted : after.tables.equalities.Trusts .structural := nofun
  suffices same : ∀ key value : ExprId, after.tables.simplified.settled[key]? = some value →
      ∀ id, later.resolve key = later.resolve id → later.Denotes id lang →
        later.Denotes value lang from same key value settled key rfl denotes
  clear denotes settled
  intro key value settled id sameResolve denotes
  induction denotes generalizing key value with
  | @intro id L below inductionHypothesis =>
      have original : later.Means .structural key ((later.get id).map L).language :=
        wellFormed'.means_of_resolve_eq sameResolve (.intro L below)
      rcases finished.settled_cases lawful settled with
        old | ⟨arena, wellFormed'', fromBase, growing', _, rule⟩
      · exact (isSimplified_base finished wellFormed sound old).means later growing wellFormed'
          .structural trusted _ original
      · have growing'' := growing'.trans growing
        have sameGet : later.get id = later.get key := by
          rw [← wellFormed'.get_resolve id, ← sameResolve, wellFormed'.get_resolve]
        cases rule with
        | unbound _ => exact original
        | never found =>
            rw [sameGet, Arena.get_of_stands (Arena.stands_of_expr (growing''.expr found))]
            exact wellFormed'.means_empty .structural
        | @reduce e e' _ found related simplifies =>
            rw [Arena.get_of_stands (Arena.stands_of_expr (growing''.expr found))] at sameGet
            rw [sameGet] at inductionHypothesis ⊢
            refine simplifies.means wellFormed'' wellFormed' growing'' trusted nofun ?_
            refine related.map_of_mem fun o member simple ⟨value', settled', sameEnd⟩ => ?_
            refine wellFormed'.means_of_resolve_eq
              (resolve_eq_of_settledAs finished growing wellFormed' sameEnd) ?_
            exact inductionHypothesis o member _ value' settled'
              (growing''.resolve_resolve wellFormed'' wellFormed' o)

omit growing wellFormed'

/-- Every simplified form keeps the meaning. -/
theorem simplificationSound_of_finished : SimplificationSound after where
  idle := finished.idle
  singlePass := finished.strategy_eq
  settled_lt := finished.settled_lt (simplification_lawful wellFormed sound.settled_lt)
  isSimplified {key value} settled :=
    { counted := counted_of_settled finished wellFormed sound settled
      defined := fun defined => defined_of_settled finished wellFormed sound defined settled
      narrows := fun later growing wellFormed' free =>
        ⟨complementFree_of_settled finished wellFormed sound growing wellFormed' free settled,
          least_le_original finished wellFormed sound growing wellFormed' free settled⟩
      means := by
        intro later growing wellFormed' sense trusted lang means
        cases sense with
        | structural =>
            exact denotes_of_settled finished wellFormed sound growing wellFormed' means settled
        | least =>
            obtain ⟨free, rfl⟩ := means
            refine ⟨complementFree_of_settled finished wellFormed sound growing wellFormed' free
              settled, le_antisymm ?_ ?_⟩
            · exact least_le_original finished wellFormed sound growing wellFormed' free settled
            · exact least_original_le finished wellFormed sound growing wellFormed' trusted free
                settled }

end Finished

end Grammar

end Residual
