import Residual.Proofs.Arena.Definedness
import Residual.Proofs.Arena.Exposure

/-!
# The same expression in two arenas

The numbers of one arena say nothing in another one.  Two expressions are the same if both stand for
one operator, their operands do in pairs, and so on.  References do not show, and undefined ones
count as `∅`.

What an expression means, reaches and exposes is the same for the same expressions.
-/

set_option autoImplicit false

namespace Residual.Arena

open Interpretation Relation

variable {arena other before after : Arena} {x y x' y' id : ExprId}

/-- Related numbers stand for one operator on related operands. -/
def IsMirroring (arena other : Arena) (Related : ExprId → ExprId → Prop) : Prop :=
  ∀ x y, Related x y → (arena.get x).Related Related (other.get y)

/-- A number of this arena and one of the other arena stand for the same expression. -/
def Mirrors (arena other : Arena) (x y : ExprId) : Prop :=
  ∃ Related, arena.IsMirroring other Related ∧ Related x y

theorem Mirrors.related_get (mirrors : arena.Mirrors other x y) :
    (arena.get x).Related (arena.Mirrors other) (other.get y) := by
  obtain ⟨Related, mirroring, related⟩ := mirrors
  exact (mirroring x y related).imp fun _ _ related => ⟨Related, mirroring, related⟩

theorem mirrors_of_related_get
    (related : (arena.get x).Related (arena.Mirrors other) (other.get y)) :
    arena.Mirrors other x y :=
  ⟨fun x y => (arena.get x).Related (arena.Mirrors other) (other.get y),
    fun _ _ related => related.imp fun _ _ mirrors => mirrors.related_get, related⟩

theorem Mirrors.symm (mirrors : arena.Mirrors other x y) : other.Mirrors arena y x :=
  ⟨fun y x => arena.Mirrors other x y, fun _ _ mirrors => mirrors.related_get.symm, mirrors⟩

theorem Mirrors.of_get_eq (mirrors : arena.Mirrors other x y) (same : arena.get x' = arena.get x)
    (same' : other.get y' = other.get y) : arena.Mirrors other x' y' :=
  mirrors_of_related_get (by rw [same, same']; exact mirrors.related_get)

theorem mirrors_self (arena : Arena) (x : ExprId) : arena.Mirrors arena x x := by
  refine ⟨Eq, ?_, rfl⟩
  rintro x _ rfl
  exact .refl_of_mem fun _ _ => rfl

/-- New slots change nothing. -/
theorem Mirrors.extends {arena' other' : Arena} (mirrors : arena.Mirrors other x y)
    (extending : arena.Extends arena') (extending' : other.Extends other')
    (wellFormed : arena.WellFormed) (wellFormed' : other.WellFormed)
    (inside : x.number < arena.size) (inside' : y.number < other.size) :
    arena'.Mirrors other' x y := by
  refine ⟨fun x y => arena.Mirrors other x y ∧ x.number < arena.size ∧ y.number < other.size,
    ?_, mirrors, inside, inside'⟩
  rintro x y ⟨mirrors, inside, inside'⟩
  rw [extending.get wellFormed inside, extending'.get wellFormed' inside']
  have below : Expr.Related (fun o' o => arena.Mirrors other o o' ∧ o'.number < other.size)
      (other.get y) (arena.get x) :=
    mirrors.related_get.symm.imp_of_mem fun o' member o mirrors =>
      ⟨mirrors, wellFormed'.operand_lt_of_get member⟩
  exact below.symm.imp_of_mem fun o member o' ⟨mirrors, inside'⟩ =>
    ⟨mirrors, wellFormed.operand_lt_of_get member, inside'⟩

/-! ## What is the same -/

/-- Interpretations by which `∅` is least do not tell the same expressions apart. -/
theorem least_le_of_mirrors {Meaning : Type} [CompleteLattice Meaning]
    (interpretation : Interpretation Meaning) (nothing : interpretation.apply .nil = ⊥)
    (wellFormed : arena.WellFormed) (wellFormed' : other.WellFormed)
    (mirrors : arena.Mirrors other x y) :
    interpretation.least arena x ≤ interpretation.least other y := by
  -- the values are the meanings that all the same expressions share
  let values : ExprId → Meaning := fun x =>
    ⨅ y, ⨅ _ : arena.Mirrors other x y, interpretation.least other y
  refine (interpretation.least_le values ?_ ?_ x).trans (iInf₂_le y mirrors)
  · intro id e found
    refine le_iInf₂ fun y mirrors => ?_
    have related := mirrors.related_get
    rw [get_of_stands (stands_of_expr found)] at related
    rw [interpretation.least_get nothing wellFormed']
    refine interpretation.monotone (by simpa using related.shape_eq) ?_
    rw [Expr.operands_map, Expr.operands_map, List.forall₂_map_left_iff,
      List.forall₂_map_right_iff]
    exact related.operands.imp fun o o' mirrors => inf_le_left.trans (iInf₂_le o' mirrors)
  · intro id target found
    refine le_iInf₂ fun y mirrors => inf_le_left.trans (iInf₂_le y ?_)
    refine mirrors.of_get_eq ?_ rfl
    rw [← wellFormed.get_resolve id, wellFormed.resolve_link found, wellFormed.get_resolve]

namespace Mirrors

variable (mirrors : arena.Mirrors other x y) (wellFormed : arena.WellFormed)
  (wellFormed' : other.WellFormed)

include mirrors wellFormed wellFormed'

theorem throughout {kind : Expr Unit → Prop} (onNil : kind .nil)
    (throughout : arena.Throughout x kind) : other.Throughout y kind := by
  let elsewhere := flag fun operator => ¬ kind operator
  have nothing : elsewhere.apply .nil = ⊥ := by
    refine eq_false ?_
    rw [flag_leaf rfl]
    exact not_not.mpr onNil
  have back : elsewhere.least other y → elsewhere.least arena x :=
    least_le_of_mirrors elsewhere nothing wellFormed' wellFormed mirrors.symm
  by_contra reached
  refine (wellFormed.least_flag_iff onNil).mp (back ?_) throughout
  exact (wellFormed'.least_flag_iff onNil).mpr reached

theorem means {sense : Sense} {lang : Language Char} (means : arena.Means sense x lang) :
    other.Means sense y lang := by
  cases sense with
  | structural =>
      induction means generalizing y with
      | @intro x L below inductionHypothesis =>
          refine wellFormed'.means_of_related_get nofun ?_
          exact mirrors.related_get.map_of_mem fun o member o' mirrors =>
            inductionHypothesis o member mirrors
  | least =>
      refine ⟨mirrors.throughout wellFormed wellFormed' nofun means.1, ?_⟩
      rw [← means.2]
      exact le_antisymm (least_le_of_mirrors words rfl wellFormed' wellFormed mirrors.symm)
        (least_le_of_mirrors words rfl wellFormed wellFormed' mirrors)

theorem speaks {lang : Language Char} (speaks : arena.Speaks x lang) : other.Speaks y lang := by
  obtain ⟨sense, means⟩ := wellFormed.means_of_speaks speaks
  exact wellFormed'.speaks_of_means (mirrors.means wellFormed wellFormed' means)

theorem acyclic (acyclic : arena.Acyclic x) : other.Acyclic y := by
  obtain ⟨lang, denotes⟩ := wellFormed.exists_denotes acyclic
  have means : arena.Means .structural x lang := denotes
  exact wellFormed'.acyclic_of_denotes (mirrors.means wellFormed wellFormed' means)

theorem containsEmpty (containsEmpty : arena.ContainsEmpty x) : other.ContainsEmpty y := by
  obtain ⟨lang, speaks, member⟩ := containsEmpty
  exact ⟨lang, mirrors.speaks wellFormed wellFormed' speaks, member⟩

theorem exposesUnbounded (exposes : arena.ExposesUnbounded x) : other.ExposesUnbounded y := by
  obtain ⟨id, lang, exposed, isRep⟩ := exposes
  induction exposed using ReflTransGen.head_induction_on generalizing y with
  | refl =>
      have related := mirrors.related_get
      rw [isRep] at related
      generalize isOther : other.get y = e' at related
      cases related with
      | rep => exact ⟨y, _, .refl, isOther⟩
  | head exposes _ inductionHypothesis =>
      obtain ⟨o, exposes, mirrors⟩ := exposes.of_related mirrors.related_get
        fun _ _ mirrors => mirrors.containsEmpty wellFormed wellFormed'
      obtain ⟨id, lang, exposed, isRep⟩ := inductionHypothesis mirrors
      exact ⟨id, lang, .head exposes exposed, isRep⟩

end Mirrors

end Residual.Arena
