import Residual.Proofs.Grammar.Derivative.Failure

/-!
# The same derivative in two grammars

Two grammars number their derivatives differently, but the rules that made them are the same.  So
the derivatives of the same expression in two grammars are the same expression, whatever was derived
before in each of them.
-/

set_option autoImplicit false

namespace Residual

open Memo

namespace Arena

variable {arena other base base' : Arena} {nullable nullable' : ExprId → Bool → Prop}
  {told told' : ExprId → ExprId → Prop} {c : Char} {x y value value' : ExprId} {e e' : Expr ExprId}
  {R S : ExprId → ExprId → Prop}

/-- What is told was made by the rules from what is told. -/
def Explains (arena : Arena) (nullable : ExprId → Bool → Prop) (told : ExprId → ExprId → Prop)
    (c : Char) : Prop :=
  ∀ id answer, told id answer → ∃ (base : Arena) (value : ExprId),
    base.Derives arena nullable told c id (arena.get id) value ∧ arena.get answer = arena.get value

namespace Explains

variable (explains : arena.Explains nullable told c) (wellFormed : arena.WellFormed) {id answer : ExprId}

include explains wellFormed

theorem get_char {c' : Char} (stands : arena.Stands id (.char c')) (isTold : told id answer) :
    arena.get answer = if c' = c then .empty else .nil := by
  obtain ⟨base, value, derives, same⟩ := explains id answer isTold
  rw [get_of_stands stands] at derives
  rw [same]
  cases derives
  split
  · exact get_of_stands wellFormed.stands_empty
  · exact get_of_stands wellFormed.stands_nil

theorem get_nil (isTold : told .nil answer) : arena.get answer = .nil := by
  obtain ⟨base, value, derives, same⟩ := explains .nil answer isTold
  rw [get_of_stands wellFormed.stands_nil] at derives
  rw [same]
  cases derives
  exact get_of_stands wellFormed.stands_nil

theorem get_empty (isTold : told .empty answer) : arena.get answer = .nil := by
  obtain ⟨base, value, derives, same⟩ := explains .empty answer isTold
  rw [get_of_stands wellFormed.stands_empty] at derives
  rw [same]
  cases derives
  exact get_of_stands wellFormed.stands_nil

/-- The derivative of an optional expression is the union of the derivative and `∅`. -/
theorem get_option {lang : ExprId} (stands : arena.Stands id (.alt lang .empty))
    (isTold : told id answer) : ∃ d d', arena.get answer = .alt d d' ∧
      told (arena.resolve lang) d ∧ arena.get d' = .nil := by
  obtain ⟨base, value, derives, same⟩ := explains id answer isTold
  rw [get_of_stands stands] at derives
  rw [same]
  cases derives with
  | alt left right found =>
      rw [wellFormed.resolve_empty] at right
      exact ⟨_, _, get_of_stands (stands_of_expr found), left, explains.get_empty wellFormed right⟩

end Explains

/-- Two arenas whose derivatives are made by the same rules, and a relation that has all pairs with
related operands. -/
structure Twinned (arena other : Arena) (nullable nullable' : ExprId → Bool → Prop)
    (told told' : ExprId → ExprId → Prop) (c : Char) (R : ExprId → ExprId → Prop) : Prop where
  wellFormed : arena.WellFormed
  wellFormed' : other.WellFormed
  explains : arena.Explains nullable told c
  explains' : other.Explains nullable' told' c
  closed : ∀ x y, (arena.get x).Related R (other.get y) → R x y

namespace Twinned

variable (twinned : arena.Twinned other nullable nullable' told told' c R) {o o' d d' : ExprId}

include twinned

theorem related_empty : (arena.get .empty).Related R (other.get .empty) := by
  rw [get_of_stands twinned.wellFormed.stands_empty, get_of_stands twinned.wellFormed'.stands_empty]
  exact .empty

theorem related_nil : (arena.get .nil).Related R (other.get .nil) := by
  rw [get_of_stands twinned.wellFormed.stands_nil, get_of_stands twinned.wellFormed'.stands_nil]
  exact .nil

omit twinned in
theorem related_expr (found : arena.slot? x = some (.expr e)) (found' : other.slot? y = some (.expr e'))
    (related : e.Related R e') : (arena.get x).Related R (other.get y) := by
  rwa [get_of_stands (stands_of_expr found), get_of_stands (stands_of_expr found')]

theorem made (found : arena.slot? x = some (.expr e)) (found' : other.slot? y = some (.expr e'))
    (related : e.Related R e') : R x y :=
  twinned.closed x y (related_expr found found' related)

theorem char {c' : Char} (found : arena.slot? o = some (.expr (.char c'))) (isTold : told o d)
    (found' : other.slot? o' = some (.expr (.char c'))) (isTold' : told' o' d') :
    (arena.get d).Related R (other.get d') := by
  rw [twinned.explains.get_char twinned.wellFormed (stands_of_expr found) isTold,
    twinned.explains'.get_char twinned.wellFormed' (stands_of_expr found') isTold']
  exact .leaf (by split <;> rfl)

theorem nil (isTold : told .nil d) (isTold' : told' .nil d') :
    (arena.get d).Related R (other.get d') := by
  rw [twinned.explains.get_nil twinned.wellFormed isTold,
    twinned.explains'.get_nil twinned.wellFormed' isTold']
  exact .nil

theorem empty (isTold : told .empty d) (isTold' : told' .empty d') :
    (arena.get d).Related R (other.get d') := by
  rw [twinned.explains.get_empty twinned.wellFormed isTold,
    twinned.explains'.get_empty twinned.wellFormed' isTold']
  exact .nil

theorem option {lang lang' : ExprId} (found : arena.slot? o = some (.expr (.alt lang .empty)))
    (isTold : told o d) (found' : other.slot? o' = some (.expr (.alt lang' .empty)))
    (isTold' : told' o' d') (answer : ∀ {d d'}, told (arena.resolve lang) d →
      told' (other.resolve lang') d' → R d d') : (arena.get d).Related R (other.get d') := by
  obtain ⟨d, none, same, isTold, isNil⟩ :=
    twinned.explains.get_option twinned.wellFormed (stands_of_expr found) isTold
  obtain ⟨d', none', same', isTold', isNil'⟩ :=
    twinned.explains'.get_option twinned.wellFormed' (stands_of_expr found') isTold'
  rw [same, same']
  exact .alt (answer isTold isTold') (twinned.closed _ _ (by rw [isNil, isNil']; exact .nil))

theorem range {low high : Char}
    (derives : base.Derives arena nullable told c x (.range low high) value)
    (derives' : base'.Derives other nullable' told' c y (.range low high) value') :
    (arena.get value).Related R (other.get value') := by
  cases derives with
  | inRange within isChar isTold =>
      cases derives' with
      | inRange _ isChar' isTold' => exact twinned.char isChar isTold isChar' isTold'
      | outOfRange outside _ => exact absurd within outside
  | outOfRange outside isTold =>
      cases derives' with
      | inRange within _ _ => exact absurd within outside
      | outOfRange _ isTold' => exact twinned.nil isTold isTold'

theorem token {text : String} (derives : base.Derives arena nullable told c x (.token text) value)
    (derives' : base'.Derives other nullable' told' c y (.token text) value') :
    (arena.get value).Related R (other.get value') := by
  cases derives with
  | noText isText isTold =>
      cases derives' with
      | noText _ isTold' => exact twinned.empty isTold isTold'
      | lastChar isText' _ _ | text isText' _ _ _ _ _ => simp [isText] at isText'
  | lastChar isText isChar isTold =>
      cases derives' with
      | noText isText' _ => simp [isText] at isText'
      | lastChar isText' isChar' isTold' =>
          obtain ⟨rfl, _⟩ := List.cons.inj (isText.symm.trans isText')
          exact twinned.char isChar isTold isChar' isTold'
      | text isText' nonempty _ _ _ _ =>
          exact absurd (List.cons.inj (isText.symm.trans isText')).2.symm nonempty
  | text isText nonempty isChar isTold isTail found =>
      cases derives' with
      | noText isText' _ => simp [isText] at isText'
      | lastChar isText' _ _ => exact absurd (List.cons.inj (isText.symm.trans isText')).2 nonempty
      | text isText' _ isChar' isTold' isTail' found' =>
          obtain ⟨rfl, rfl⟩ := List.cons.inj (isText.symm.trans isText')
          exact related_expr found found'
            (.cat (twinned.closed _ _ (twinned.char isChar isTold isChar' isTold'))
              (twinned.made isTail isTail' (.literal _)))

end Twinned

/-- Derivatives of related expressions are related, where those of related operands are. -/
theorem Derives.parallel (derives : base.Derives arena nullable told c x e value)
    (derives' : base'.Derives other nullable' told' c y e' value')
    (twinned : arena.Twinned other nullable nullable' told told' c R) (self : R x y)
    (related : e.Related S e') (operand : ∀ {o o'}, S o o' → R o o')
    (answer : ∀ {o o' d d'}, S o o' → told (arena.resolve o) d → told' (other.resolve o') d' → R d d')
    (sameNullable : ∀ {o o' isEmpty isEmpty'}, S o o' → nullable o isEmpty →
      nullable' o' isEmpty' → isEmpty = isEmpty')
    (once : ∀ {o o' d d'}, e = .rep o (.finite 1) → S o o' → told (arena.resolve o) d →
      told' (other.resolve o') d' → (arena.get d).Related R (other.get d')) :
    (arena.get value).Related R (other.get value') := by
  cases related with
  | any =>
      cases derives
      cases derives'
      exact twinned.related_empty
  | empty | nil =>
      cases derives
      cases derives'
      exact twinned.related_nil
  | char c' =>
      cases derives
      cases derives'
      split
      · exact twinned.related_empty
      · exact twinned.related_nil
  | range low high => exact twinned.range derives derives'
  | token text => exact twinned.token derives derives'
  | alt left right =>
      cases derives with
      | alt isLeft isRight found =>
          cases derives' with
          | alt isLeft' isRight' found' =>
              exact Twinned.related_expr found found'
                (.alt (answer left isLeft isLeft') (answer right isRight isRight'))
  | cat first second =>
      cases derives with
      | cat isHead isNullable found =>
          cases derives' with
          | cat isHead' _ found' =>
              exact Twinned.related_expr found found'
                (.cat (answer first isHead isHead') (operand second))
          | catNullable _ isNullable' _ _ _ => cases sameNullable first isNullable isNullable'
      | catNullable isHead isNullable isCat isTail found =>
          cases derives' with
          | cat _ isNullable' _ => cases sameNullable first isNullable isNullable'
          | catNullable isHead' _ isCat' isTail' found' =>
              have head := twinned.made isCat isCat'
                (.cat (answer first isHead isHead') (operand second))
              exact Twinned.related_expr found found' (.alt head (answer second isTail isTail'))
  | not lang =>
      cases derives with
      | not isTold found =>
          cases derives' with
          | not isTold' found' =>
              exact Twinned.related_expr found found' (.not (answer lang isTold isTold'))
  | opt lang =>
      cases derives with
      | opt _ isOption isTold =>
          cases derives' with
          | opt _ isOption' isTold' =>
              exact twinned.option isOption isTold isOption' isTold' (answer lang)
  | plus lang =>
      cases derives with
      | plus isHead isStar found =>
          cases derives' with
          | plus isHead' isStar' found' =>
              have star := twinned.made isStar isStar' (.star (operand lang))
              exact Twinned.related_expr found found' (.cat (answer lang isHead isHead') star)
  | star lang =>
      cases derives with
      | star isHead found =>
          cases derives' with
          | star isHead' found' =>
              exact Twinned.related_expr found found' (.cat (answer lang isHead isHead') self)
  | rep count lang =>
      cases derives with
      | never =>
          cases derives'
          exact twinned.related_empty
      | once isTold =>
          cases derives' with
          | once isTold' => exact once rfl lang isTold isTold'
      | repeated isHead isRest found =>
          cases derives' with
          | repeated isHead' isRest' found' =>
              have rest := twinned.made isRest isRest' (.rep _ (operand lang))
              exact Twinned.related_expr found found' (.cat (answer lang isHead isHead') rest)
      | unbounded =>
          cases derives'
          exact twinned.related_nil

/-- The same expressions end in the same way. -/
theorem Mirrors.ends (mirrors : arena.Mirrors other x y) (ends : arena.Ends x) : other.Ends y := by
  induction ends generalizing y with
  | other different =>
      refine .other fun lang isOnce => ?_
      have related := mirrors.related_get
      rw [isOnce] at related
      generalize isRep : arena.get _ = e at related
      cases related
      exact different _ isRep
  | once isOnce _ inductionHypothesis =>
      have related := mirrors.related_get
      rw [isOnce] at related
      generalize isRep : other.get y = e at related
      cases related with
      | rep _ mirrors => exact .once isRep (inductionHypothesis mirrors)

end Arena

namespace Grammar

variable {grammar before after : Grammar} {x y d d' value value' : ExprId} {c : Char} {sense : Sense}
  {lang : Language Char}

theorem DerivativesFollow.explains (follow : grammar.DerivativesFollow)
    (wellFormed : grammar.arena.WellFormed) (c : Char) :
    grammar.arena.Explains (grammar.arena.IsNullable grammar.tables.nullability.Trusts)
      (fun id answer => grammar.Knows ⟨id, c⟩ answer) c := by
  rintro id answer ⟨value, settled, same⟩
  obtain ⟨base, derives⟩ := (follow.follows settled).derives
  refine ⟨base, value, derives, ?_⟩
  rw [← wellFormed.get_resolve answer, same, wellFormed.get_resolve]

theorem Knows.get_eq {key : Derivation} (wellFormed : grammar.arena.WellFormed)
    (knows : grammar.Knows key d) (knows' : grammar.Knows key d') :
    grammar.arena.get d = grammar.arena.get d' := by
  obtain ⟨value, settled, same⟩ := knows
  obtain ⟨value', settled', same'⟩ := knows'
  obtain rfl := Option.some_inj.mp (settled.symm.trans settled')
  rw [← wellFormed.get_resolve d, same, ← same', wellFormed.get_resolve]

/-- Where repetitions of single times go round in a circle the derivative is `∅`. -/
theorem DerivativesFollow.get_eq_nil (follow : grammar.DerivativesFollow)
    (wellFormed : grammar.arena.WellFormed) (circle : ¬ grammar.arena.Ends x)
    (knows : grammar.Knows ⟨grammar.arena.resolve x, c⟩ d) : grammar.arena.get d = .nil := by
  obtain ⟨value, settled, same⟩ := knows
  rw [← wellFormed.get_resolve d, same, wellFormed.get_resolve]
  by_contra isSomething
  exact circle ((follow.ends settled isSomething).of_get_eq (wellFormed.get_resolve x).symm)

/-! ## Derivatives have languages -/

/-- The derivative of an expression without cycles has none. -/
theorem DerivativesFollow.exists_denotes (follow : grammar.DerivativesFollow)
    (wellFormed : grammar.arena.WellFormed) (denotes : grammar.arena.Denotes x lang)
    (knows : grammar.Knows ⟨grammar.arena.resolve x, c⟩ d) :
    ∃ rest, grammar.arena.Denotes d rest := by
  have closed : ∀ x y, (grammar.arena.get x).Related
      (fun o _ => ∃ lang, grammar.arena.Denotes o lang) (grammar.arena.get y) →
      ∃ lang, grammar.arena.Denotes x lang := by
    intro x y related
    obtain ⟨L, below⟩ := Arena.exists_denoted fun o member => by
      obtain ⟨_, _, denotes⟩ := related.exists_right member
      exact denotes
    exact ⟨_, .intro L below⟩
  have explains := follow.explains wellFormed c
  induction denotes generalizing d with
  | @intro x L below inductionHypothesis =>
      have original : grammar.arena.Means .structural x _ := Arena.Denotes.intro L below
      obtain ⟨base, value, derives, same⟩ := explains _ _ knows
      rw [wellFormed.get_resolve] at derives
      refine closed d d ?_
      rw [same]
      refine derives.parallel derives ⟨wellFormed, wellFormed, explains, explains, closed⟩
        ?_ (.refl_of_mem (R := fun o o' => o = o' ∧ o ∈ (grammar.arena.get x).operands)
          fun o member => ⟨rfl, member⟩) ?_ ?_ ?_ ?_
      · exact ⟨_, wellFormed.means_resolve.mpr original⟩
      · rintro o _ ⟨rfl, member⟩
        exact ⟨L o, below o member⟩
      · rintro o _ d _ ⟨rfl, member⟩ knows _
        exact inductionHypothesis o member knows
      · rintro o _ isEmpty isEmpty' ⟨rfl, member⟩ isNullable isNullable'
        exact Bool.eq_iff_iff.mpr ((isNullable.exact .structural nofun _ (below o member)).trans
          (isNullable'.exact .structural nofun _ (below o member)).symm)
      · rintro o _ d d' _ ⟨rfl, member⟩ knows knows'
        obtain ⟨rest, denotes⟩ := inductionHypothesis o member knows
        rw [← knows.get_eq wellFormed knows']
        cases denotes with
        | intro R below => exact .refl_of_mem fun o member => ⟨R o, below o member⟩

/-- Derivatives have a language in the same sense. -/
theorem Coherent.exists_means_derivative (coherent : grammar.Coherent)
    (follow : grammar.DerivativesFollow) (means : grammar.arena.Means sense x lang)
    (knows : grammar.Knows ⟨grammar.arena.resolve x, c⟩ d) :
    ∃ rest, grammar.arena.Means sense d rest := by
  have wellFormed := coherent.wellFormed
  cases sense with
  | structural => exact follow.exists_denotes wellFormed means knows
  | least =>
      obtain ⟨value, settled, same⟩ := knows
      have free := (coherent.derivatives.isDerivative settled).complementFree _ (.refl _) wellFormed
        (wellFormed.throughout_resolve.mpr means.1)
      exact ⟨_, (Arena.throughout_congr same).mpr free, rfl⟩

/-! ## Two grammars -/

/-- The second number stands for the same expression in the other grammar if derivatives of the same
expressions are the same. -/
inductive Copies (before after : Grammar) (sense : Sense) : ExprId → ExprId → Prop where
  | same {x y : ExprId} : before.arena.Mirrors after.arena x y → Copies before after sense x y
  | derived {x y d d' : ExprId} {c : Char} {lang : Language Char} :
      before.arena.Mirrors after.arena x y → before.arena.Means sense x lang →
      before.Knows ⟨before.arena.resolve x, c⟩ d → after.Knows ⟨after.arena.resolve y, c⟩ d' →
      Copies before after sense d d'
  | made {x y : ExprId} :
      (before.arena.get x).Related (Copies before after sense) (after.arena.get y) →
      Copies before after sense x y

section Copies

variable (wellFormed : before.arena.WellFormed) (wellFormed' : after.arena.WellFormed)
  (follow : before.DerivativesFollow) (follow' : after.DerivativesFollow)
  (trusted : before.tables.nullability.Trusts sense)
  (trusted' : after.tables.nullability.Trusts sense)

include wellFormed wellFormed' follow follow' trusted trusted'

theorem related_derivatives (mirrors : before.arena.Mirrors after.arena x y)
    (means : before.arena.Means sense x lang)
    (knows : before.Knows ⟨before.arena.resolve x, c⟩ d)
    (knows' : after.Knows ⟨after.arena.resolve y, c⟩ d')
    (once : ∀ {o o' d d'}, before.arena.get x = .rep o (.finite 1) →
      before.arena.Mirrors after.arena o o' → (∃ lang, before.arena.Means sense o lang) →
      before.Knows ⟨before.arena.resolve o, c⟩ d → after.Knows ⟨after.arena.resolve o', c⟩ d' →
      (before.arena.get d).Related (before.Copies after sense) (after.arena.get d')) :
    (before.arena.get d).Related (before.Copies after sense) (after.arena.get d') := by
  have explains := follow.explains wellFormed c
  have explains' := follow'.explains wellFormed' c
  obtain ⟨base, value, derives, same⟩ := explains _ _ knows
  obtain ⟨base', value', derives', same'⟩ := explains' _ _ knows'
  rw [wellFormed.get_resolve] at derives
  rw [wellFormed'.get_resolve] at derives'
  rw [same, same']
  obtain ⟨_, L, below, _⟩ := wellFormed.means_operands means
  refine derives.parallel derives'
    ⟨wellFormed, wellFormed', explains, explains', fun x y => .made⟩ ?_
    (S := fun o o' => before.arena.Mirrors after.arena o o' ∧ ∃ lang, before.arena.Means sense o lang)
    ?_ ?_ ?_ ?_ ?_
  · exact .same (mirrors.of_get_eq (wellFormed.get_resolve x) (wellFormed'.get_resolve y))
  · exact mirrors.related_get.imp_of_mem fun o member o' mirrors => ⟨mirrors, L o, below o member⟩
  · rintro o o' ⟨mirrors, _⟩
    exact .same mirrors
  · rintro o o' d d' ⟨mirrors, lang, means⟩ knows knows'
    exact .derived mirrors means knows knows'
  · rintro o o' isEmpty isEmpty' ⟨mirrors, lang, means⟩ isNullable isNullable'
    exact Bool.eq_iff_iff.mpr ((isNullable.exact sense trusted lang means).trans
      (isNullable'.exact sense trusted' lang (mirrors.means wellFormed wellFormed' means)).symm)
  · rintro o o' d d' isOnce ⟨mirrors, means⟩ knows knows'
    exact once isOnce mirrors means knows knows'

theorem copies_isMirroring : before.arena.IsMirroring after.arena (before.Copies after sense) := by
  intro x y copies
  cases copies with
  | same mirrors => exact mirrors.related_get.imp fun _ _ mirrors => .same mirrors
  | made related => exact related
  | @derived x' y' d d' c lang mirrors means knows knows' =>
      by_cases ends : before.arena.Ends x'
      · induction ends generalizing y' x y lang with
        | other different =>
            exact related_derivatives wellFormed wellFormed' follow follow' trusted trusted' mirrors
              means knows knows' fun isOnce => absurd isOnce (different _)
        | once isOnce _ inductionHypothesis =>
            refine related_derivatives wellFormed wellFormed' follow follow' trusted trusted' mirrors
              means knows knows' ?_
            intro o o' d d' isOnce' mirrors means knows knows'
            obtain ⟨lang, means⟩ := means
            obtain ⟨rfl, _⟩ := Expr.rep.inj (isOnce.symm.trans isOnce')
            exact inductionHypothesis _ _ mirrors means knows knows'
      · have circle : ¬ after.arena.Ends y' := fun ends' => ends (mirrors.symm.ends ends')
        rw [follow.get_eq_nil wellFormed ends knows, follow'.get_eq_nil wellFormed' circle knows']
        exact .nil

/-- The derivatives of the same expression are the same expression. -/
theorem mirrors_derivatives (mirrors : before.arena.Mirrors after.arena x y)
    (means : before.arena.Means sense x lang)
    (knows : before.Knows ⟨before.arena.resolve x, c⟩ d)
    (knows' : after.Knows ⟨after.arena.resolve y, c⟩ d') :
    before.arena.Mirrors after.arena d d' :=
  ⟨before.Copies after sense,
    copies_isMirroring wellFormed wellFormed' follow follow' trusted trusted',
    .derived mirrors means knows knows'⟩

end Copies

end Grammar

end Residual
