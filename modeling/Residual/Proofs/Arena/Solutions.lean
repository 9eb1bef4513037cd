import Mathlib.Data.Set.Finite.Basic
import Residual.Proofs.Arena.Sense
import Residual.Proofs.Expr.Related

/-!
# Solutions of the equations below an expression

An expression without cycles has exactly one language by structural recursion, and one without
complements has one by the least solution; where both apply they agree.
-/

set_option autoImplicit false

namespace Residual.Arena

open Interpretation

variable {arena before after : Arena} {id root : ExprId} {lang lang' : Language Char}

/-- Nothing below a resolved number goes on forever. -/
def Grounded (arena : Arena) (id : ExprId) : Prop :=
  Acc (fun y x => arena.Child x y) id

theorem not_transGen_of_acc {Item : Type} {Follows : Item → Item → Prop} {x : Item}
    (accessible : Acc (fun y x => Follows x y) x) : ¬ Relation.TransGen Follows x x := by
  induction accessible with
  | intro x _ inductionHypothesis =>
      intro cycle
      obtain ⟨y, follows, rest⟩ := Relation.TransGen.head'_iff.mp cycle
      exact inductionHypothesis y follows (.tail' rest follows)

namespace WellFormed

variable (wellFormed : arena.WellFormed)

include wellFormed

theorem grounded_resolve : arena.Grounded (arena.resolve id) ↔ arena.Grounded id := by
  have same : ∀ y, arena.Child (arena.resolve id) y ↔ arena.Child id y := by
    intro y
    unfold Child
    rw [wellFormed.operands_resolve]
  constructor
  · exact fun grounded => .intro _ fun y child => grounded.inv ((same y).mpr child)
  · exact fun grounded => .intro _ fun y child => grounded.inv ((same y).mp child)

theorem child_lt {x y : ExprId} (child : arena.Child x y) : y.number < arena.size := by
  obtain ⟨o, member, rfl⟩ := mem_operands_iff.mp child
  exact wellFormed.resolve_lt (wellFormed.operand_lt_of_get member)

theorem reaches_lt (inside : root.number < arena.size) (reaches : arena.Reaches root id) :
    id.number < arena.size := by
  rcases Relation.ReflTransGen.cases_tail reaches with same | ⟨_, _, child⟩
  · exact same ▸ wellFormed.resolve_lt inside
  · exact wellFormed.child_lt child

theorem reaches_finite (root : ExprId) : {id | arena.Reaches root id}.Finite := by
  have slots : {id : ExprId | id.number < arena.size}.Finite := by
    refine ((Set.finite_lt_nat arena.size).image ExprId.mk).subset ?_
    rintro ⟨number⟩ inside
    exact ⟨number, inside, rfl⟩
  refine (slots.insert (arena.resolve root)).subset ?_
  intro id reaches
  rcases Relation.ReflTransGen.cases_tail reaches with same | ⟨x, _, child⟩
  · exact .inl same
  · exact .inr (wellFormed.child_lt child)

/-- A transitive relation among what can be reached is well-founded if nothing is related to
itself. -/
theorem acc_of_irrefl (root : ExprId) (After : ExprId → ExprId → Prop)
    (trans : ∀ {x y z}, After z y → After y x → After z x)
    (irrefl : ∀ x, arena.Reaches root x → ¬ After x x)
    (onward : ∀ {x y}, arena.Reaches root x → After y x → arena.Reaches root y) :
    Acc After (arena.resolve root) := by
  let Below := {id // arena.Reaches root id}
  let Among : Below → Below → Prop := fun y x => After y.1 x.1
  have : Finite Below := wellFormed.reaches_finite root
  have : IsTrans Below Among := ⟨fun _ _ _ => trans⟩
  have : Std.Irrefl Among := ⟨fun x => irrefl x.1 x.2⟩
  have accessible := (Finite.wellFounded_of_trans_of_irrefl Among).apply
    ⟨arena.resolve root, arena.reaches_self root⟩
  generalize start : (⟨arena.resolve root, _⟩ : Below) = x at accessible
  have value : arena.resolve root = x.1 := congrArg Subtype.val start
  rw [value]
  clear start value
  induction accessible with
  | intro x _ inductionHypothesis =>
      exact .intro _ fun y after => inductionHypothesis ⟨y, onward x.2 after⟩ after

theorem grounded_of_acyclic (acyclic : arena.Acyclic root) :
    arena.Grounded (arena.resolve root) := by
  have accessible := wellFormed.acc_of_irrefl root (fun y x => Relation.TransGen arena.Child x y)
    (fun second first => first.trans second) acyclic
    (fun reaches after => reaches.trans after.to_reflTransGen)
  exact Subrelation.accessible .single accessible

theorem exists_denotes_of_grounded (grounded : arena.Grounded (arena.resolve id)) :
    ∃ lang, arena.Denotes id lang := by
  generalize start : arena.resolve id = x at grounded
  induction grounded generalizing id with
  | intro x _ inductionHypothesis =>
      have denoted : ∀ o ∈ (arena.get id).operands, ∃ lang, arena.Denotes o lang := by
        intro o member
        refine inductionHypothesis (arena.resolve o) ?_ rfl
        unfold Child
        rw [← start, wellFormed.operands_resolve, mem_operands_iff]
        exact ⟨o, member, rfl⟩
      obtain ⟨L, below⟩ := exists_denoted denoted
      exact ⟨_, .intro L below⟩

theorem exists_denotes (acyclic : arena.Acyclic id) : ∃ lang, arena.Denotes id lang :=
  wellFormed.exists_denotes_of_grounded (wellFormed.grounded_of_acyclic acyclic)

theorem grounded_of_denotes (denotes : arena.Denotes id lang) :
    arena.Grounded (arena.resolve id) := by
  induction denotes with
  | @intro id L _ inductionHypothesis =>
      refine .intro _ fun y child => ?_
      unfold Child at child
      rw [wellFormed.operands_resolve, mem_operands_iff] at child
      obtain ⟨o, member, rfl⟩ := child
      exact inductionHypothesis o member

/-- Without complements structural recursion gives the least solution. -/
theorem least_eq_of_denotes (free : arena.ComplementFree id) (denotes : arena.Denotes id lang) :
    words.least arena id = lang := by
  induction denotes with
  | @intro id L below inductionHypothesis =>
      obtain ⟨here, free⟩ := wellFormed.complementFree_iff.mp free
      rw [wellFormed.least_words here]
      have same : (arena.get id).map (words.least arena) = (arena.get id).map L :=
        Expr.ext_of_shape (by simp)
          (by simpa using fun o member => inductionHypothesis o member (free o member))
      rw [same]

theorem means_unique {sense sense' : Sense} (means : arena.Means sense id lang)
    (means' : arena.Means sense' id lang') : lang = lang' := by
  match sense, sense' with
  | .structural, .structural => exact Denotes.unique means means'
  | .least, .least => exact means.2.symm.trans means'.2
  | .structural, .least =>
      exact (wellFormed.least_eq_of_denotes means'.1 means).symm.trans means'.2
  | .least, .structural =>
      exact means.2.symm.trans (wellFormed.least_eq_of_denotes means.1 means')

/-- An expression means what its operator makes of what its operands mean. -/
theorem means_of_related_get {E : Expr (Language Char)} {sense : Sense}
    (noComplement : sense = .least → (arena.get id).shape ≠ .not ())
    (related : (arena.get id).Related (arena.Means sense) E) : arena.Means sense id E.language := by
  classical
  let L : ExprId → Language Char := fun o =>
    if means : ∃ lang, arena.Means sense o lang then means.choose else 0
  have meansL : ∀ {o lang}, arena.Means sense o lang → lang = L o := by
    intro o lang means
    have exists_lang : ∃ lang, arena.Means sense o lang := ⟨lang, means⟩
    change _ = if means : _ then _ else _
    rw [dif_pos exists_lang]
    exact wellFormed.means_unique means exists_lang.choose_spec
  obtain rfl := (related.imp fun _ _ means => meansL means).eq_map
  refine wellFormed.means_intro noComplement fun o member => ?_
  have related := Expr.Related.map_right.mp related
  obtain ⟨_, _, means⟩ := related.exists_right member
  rwa [meansL means] at means

theorem means_of_related {e : Expr ExprId} {E : Expr (Language Char)} {sense : Sense}
    (stands : arena.Stands id e) (noComplement : sense = .least → e.shape ≠ .not ())
    (related : e.Related (arena.Means sense) E) : arena.Means sense id E.language := by
  rw [← get_of_stands stands] at noComplement related
  exact wellFormed.means_of_related_get noComplement related

/-- What an expression means is made from what its operands mean. -/
theorem exists_related {e : Expr ExprId} {sense : Sense} (stands : arena.Stands id e)
    (means : arena.Means sense id lang) : (sense = .least → e.shape ≠ .not ()) ∧
      ∃ E : Expr (Language Char), e.Related (arena.Means sense) E ∧ lang = E.language := by
  obtain ⟨noComplement, L, below, isLang⟩ := wellFormed.operands_of_stands stands means
  exact ⟨noComplement, e.map L, .map_self below, isLang⟩

theorem means_empty (sense : Sense) : arena.Means sense .empty 1 :=
  wellFormed.means_of_related wellFormed.stands_empty (by simp [Expr.shape, Expr.map]) .empty

theorem means_nil (sense : Sense) : arena.Means sense .nil 0 :=
  wellFormed.means_of_related wellFormed.stands_nil (by simp [Expr.shape, Expr.map]) .nil

/-- The least solution over the whole arena solves the equations below an expression without
complements, and lies below every other solution there. -/
theorem isLeastSolution (free : arena.ComplementFree root) :
    arena.IsLeastSolution root (words.least arena) := by
  constructor
  · intro id reaches
    rw [wellFormed.least_words (free id reaches)]
    congr 2
    funext o
    rw [words.least_resolve wellFormed]
  · intro L' solves id reaches
    classical
    -- outside of the graph below the root nothing is demanded
    let values : ExprId → Language Char := fun id =>
      if arena.Reaches root (arena.resolve id) then L' (arena.resolve id) else ⊤
    have value : values id = L' id := by
      change (if _ then _ else _) = _
      rw [wellFormed.resolve_of_reaches reaches, if_pos reaches]
    rw [← value]
    refine words.least_le values ?_ ?_ id
    · intro id e found
      change _ ≤ if _ then _ else _
      split
      · rename_i reaches
        rw [resolve_of_expr found] at reaches ⊢
        have sameGet := get_of_stands (stands_of_expr found)
        have here := free id reaches
        rw [sameGet] at here
        rw [solves id reaches, sameGet, ← words_apply (by rwa [Expr.shape_map])]
        refine words.apply_map_mono fun o member => inf_le_left.trans ?_
        have below : arena.Reaches root (arena.resolve o) :=
          reaches.tail (mem_operands_iff.mpr ⟨o, sameGet ▸ member, rfl⟩)
        change (if _ then _ else _) ≤ _
        rw [if_pos below]
      · exact le_top
    · intro id target found
      refine inf_le_left.trans ?_
      change (if _ then _ else _) ≤ if _ then _ else _
      rw [wellFormed.resolve_link found]

theorem generates_iff (free : arena.ComplementFree root) :
    arena.Generates root lang ↔ words.least arena root = lang := by
  have least := wellFormed.isLeastSolution free
  constructor
  · rintro ⟨L, isLeast, rfl⟩
    rw [← words.least_resolve wellFormed]
    exact le_antisymm (least.2 L isLeast.1 _ (arena.reaches_self root))
      (isLeast.2 _ least.1 _ (arena.reaches_self root))
  · intro same
    exact ⟨words.least arena, least, (words.least_resolve wellFormed root).trans same⟩

end WellFormed

/-! ## The language of an expression -/

/-- The language of an expression: by structural recursion if no cycle can be reached, and by the
least solution if no complement can be reached. -/
def Speaks (arena : Arena) (id : ExprId) (lang : Language Char) : Prop :=
  (arena.Acyclic id ∧ arena.Denotes id lang) ∨ (arena.ComplementFree id ∧ arena.Generates id lang)

namespace WellFormed

variable (wellFormed : arena.WellFormed)

include wellFormed

theorem acyclic_of_denotes (denotes : arena.Denotes id lang) : arena.Acyclic id := by
  intro x reaches
  have grounded : arena.Grounded x := by
    induction reaches with
    | refl => exact wellFormed.grounded_of_denotes denotes
    | tail _ child inductionHypothesis => exact inductionHypothesis.inv child
  exact not_transGen_of_acc grounded

theorem acyclic_empty : arena.Acyclic .empty :=
  wellFormed.acyclic_of_denotes (wellFormed.means_empty .structural)

theorem speaks_of_means {sense : Sense} (means : arena.Means sense id lang) :
    arena.Speaks id lang := by
  cases sense with
  | structural => exact .inl ⟨wellFormed.acyclic_of_denotes means, means⟩
  | least => exact .inr ⟨means.1, (wellFormed.generates_iff means.1).mpr means.2⟩

theorem means_of_speaks (speaks : arena.Speaks id lang) : ∃ sense, arena.Means sense id lang := by
  rcases speaks with ⟨_, denotes⟩ | ⟨free, generates⟩
  · exact ⟨.structural, denotes⟩
  · exact ⟨.least, free, (wellFormed.generates_iff free).mp generates⟩

theorem speaks_unique (speaks : arena.Speaks id lang) (speaks' : arena.Speaks id lang') :
    lang = lang' := by
  obtain ⟨_, means⟩ := wellFormed.means_of_speaks speaks
  obtain ⟨_, means'⟩ := wellFormed.means_of_speaks speaks'
  exact wellFormed.means_unique means means'

theorem exists_means (kind : arena.Acyclic id ∨ arena.ComplementFree id) :
    ∃ sense lang, arena.Means sense id lang := by
  rcases kind with acyclic | free
  · exact ⟨.structural, wellFormed.exists_denotes acyclic⟩
  · exact ⟨.least, _, free, rfl⟩

end WellFormed

section Growing

variable (grows : before.Grows after) (wellFormed : before.WellFormed)
  (wellFormed' : after.WellFormed)

include grows wellFormed wellFormed'

theorem Grows.child {x y : ExprId} (child : before.Child x y) :
    after.Child (after.resolve x) (after.resolve y) := by
  obtain ⟨o, member, rfl⟩ := mem_operands_iff.mp child
  unfold Child
  rw [wellFormed'.operands_resolve, mem_operands_iff]
  exact ⟨o, grows.mem_operands wellFormed wellFormed' member,
    (grows.resolve_resolve wellFormed wellFormed' o).symm⟩

/-- What was reached is reached later, at the end of its chain of links. -/
theorem Grows.reaches (reaches : before.Reaches root id) :
    after.Reaches root (after.resolve id) := by
  induction reaches with
  | refl =>
      rw [grows.resolve_resolve wellFormed wellFormed']
      exact after.reaches_self root
  | tail _ child inductionHypothesis =>
      exact inductionHypothesis.tail (grows.child wellFormed wellFormed' child)

/-- Growing keeps cycles, so what is grounded later was grounded before. -/
theorem Grows.grounded {x : ExprId} (grounded : after.Grounded (after.resolve x)) :
    before.Grounded (before.resolve x) := by
  generalize start : after.resolve x = y at grounded
  induction grounded generalizing x with
  | intro y _ inductionHypothesis =>
      refine .intro _ fun z child => ?_
      have child' := grows.child wellFormed wellFormed' child
      rw [grows.resolve_resolve wellFormed wellFormed', start] at child'
      have grounded := inductionHypothesis (after.resolve z) child' rfl
      obtain ⟨o, _, rfl⟩ := mem_operands_iff.mp child
      rwa [wellFormed.resolve_resolve] at grounded

end Growing

end Residual.Arena
