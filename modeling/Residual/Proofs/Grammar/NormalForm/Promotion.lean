import Residual.Proofs.Grammar.NormalForm.Copies

/-!
# What the rules make of an operator

Of an operator whose operands are simplified a rule makes the same operator, or it puts one of the
operands in its place, or something without operands.  If the expression is orderly, then the answer is
what `Becomes` says.
-/

set_option autoImplicit false

namespace Residual

namespace Expr

variable {A B : Type} {R : A → B → Prop} {e : Expr A} {e' : Expr B}

theorem Related.isLetter (related : e.Related R e') (isLetter : e.IsLetter) : e'.IsLetter := by
  obtain ⟨isLeaf, notEmpty⟩ := isLetter
  cases related with
  | empty => exact absurd rfl notEmpty
  | any | nil | char _ | range _ _ | token _ => exact ⟨rfl, nofun⟩
  | _ => cases isLeaf

theorem Related.isTight (related : e.Related R e') (isTight : e.IsTight) : e'.IsTight := by
  cases related <;> exact isTight

theorem IsTight.withStar (isTight : e.IsTight) : e.withStar.IsTight := by
  cases e with
  | rep _ count =>
      cases count with
      | finite _ => exact isTight
      | infinite => trivial
  | _ => exact isTight

theorem IsLetter.withStar (isLetter : e.IsLetter) : e.withStar.IsLetter := by
  cases e with
  | rep _ _ => cases isLetter.1
  | _ => exact isLetter

end Expr

namespace Arena

/-- A rule puts the operand in the place of its operator. -/
inductive Promotes (arena : Arena) : Expr ExprId → ExprId → Prop where
  | alt {left right o : ExprId} : o ∈ (Expr.alt left right).operands →
      Promotes arena (.alt left right) o
  | nil {first second o : ExprId} : o ∈ (Expr.cat first second).operands →
      arena.Stands o .nil → Promotes arena (.cat first second) o
  | first {first second : ExprId} : arena.Stands second .empty →
      Promotes arena (.cat first second) first
  | second {first second : ExprId} : arena.Stands first .empty →
      Promotes arena (.cat first second) second
  | tight {e : Expr ExprId} {o : ExprId} : e.IsTight → o ∈ e.operands → arena.IsTight o →
      Promotes arena e o
  | once {lang : ExprId} : Promotes arena (.rep lang (.finite 1)) lang

/-- What a rule makes of an operator with simplified operands, other than a rearranged union. -/
inductive Rebuilds (arena : Arena) (id : ExprId) : Expr ExprId → ExprId → Prop where
  | copied {e : Expr ExprId} {value : ExprId} : arena.slot? value = some (.expr e.withStar) →
      id.number < value.number → Rebuilds arena id e value
  | unchanged {e : Expr ExprId} : arena.slot? id = some (.expr e) → e.withStar = e →
      Rebuilds arena id (e.map arena.resolve) id
  | operand {e : Expr ExprId} {o : ExprId} : arena.Promotes e o → Rebuilds arena id e o
  | collapsed {e e' : Expr ExprId} {value : ExprId} : e.IsTight → arena.Stands value e' →
      e'.operands = [] → (e.operands = [] → e' ≠ .empty) → Rebuilds arena id e value
  | inner {lang inner : ExprId} : arena.Stands lang (.not inner) →
      Rebuilds arena id (.not lang) (arena.resolve inner)

variable {arena : Arena} {id o : ExprId} {e : Expr ExprId}

theorem Rebuilds.empty (wellFormed : arena.WellFormed) (isTight : e.IsTight)
    (hasOperand : e.operands ≠ []) : arena.Rebuilds id e .empty :=
  .collapsed isTight wellFormed.stands_empty rfl fun isLeaf => absurd isLeaf hasOperand

theorem Promotes.mem (promotes : arena.Promotes e o) : o ∈ e.operands := by
  cases promotes with
  | alt member => exact member
  | nil member _ => exact member
  | first _ => simp [Expr.operands]
  | second _ => simp [Expr.operands]
  | tight _ member _ => exact member
  | once => simp [Expr.operands]

end Arena

namespace Grammar

variable {grammar before after : Grammar} {id key link value answer origin copy x y : ExprId}
  {left right l r : ExprId} {e e' : Expr ExprId}

/-- What a rule makes of a sequence. -/
theorem sequels_of_rebuilds {first second f s : ExprId} (wellFormed : grammar.arena.WellFormed)
    (found : grammar.arena.slot? id = some (.expr (.cat first second)))
    (isFirst : grammar.Reflects (grammar.arena.resolve first) f)
    (isSecond : grammar.Reflects (grammar.arena.resolve second) s)
    (rebuilds : grammar.arena.Rebuilds id (.cat f s) value) :
    grammar.Sequels first second value := by
  generalize isCat : Expr.cat f s = e at rebuilds
  cases rebuilds with
  | copied isCopy _ =>
      subst isCat
      exact .cat isFirst isSecond (Arena.stands_of_expr isCopy)
  | @unchanged e₀ found' _ =>
      obtain rfl : e₀ = .cat first second := by simpa [found] using found'.symm
      obtain ⟨rfl, rfl⟩ : f = grammar.arena.resolve first ∧ s = grammar.arena.resolve second := by
        simpa [Expr.map] using isCat
      refine .cat ?_ ?_ (Arena.stands_of_expr found)
      · exact isFirst.of_resolve_eq (wellFormed.resolve_resolve first).symm
      · exact isSecond.of_resolve_eq (wellFormed.resolve_resolve second).symm
  | operand promotes =>
      subst isCat
      cases promotes with
      | nil _ isNil => exact .nil isNil
      | first isEmpty => exact .first isFirst isSecond isEmpty rfl
      | second isEmpty => exact .second isFirst isSecond isEmpty rfl
      | tight isTight _ _ => exact isTight.elim
  | collapsed isTight _ _ _ =>
      subst isCat
      exact isTight.elim
  | inner _ => cases isCat

/-- What a rule makes of something firm. -/
theorem hardens_of_rebuilds (wellFormed : grammar.arena.WellFormed)
    (found : grammar.arena.slot? id = some (.expr e))
    (related : e.Related (fun o o' => grammar.Reflects (grammar.arena.resolve o) o') e')
    (rebuilds : grammar.arena.Rebuilds id e' value) : grammar.Hardens id value := by
  have same : ∀ {e₀}, grammar.arena.slot? id = some (.expr e₀) → e = e₀ := by
    intro e₀ found'
    simpa [found] using found'
  refine ⟨fun found' isLetter => ?_, fun found' isTight => ?_, fun found' => ?_⟩
  · have isLetter' := related.isLetter (same found' ▸ isLetter)
    cases rebuilds with
    | copied isCopy _ => exact ⟨_, Arena.stands_of_expr isCopy, isLetter'.withStar⟩
    | unchanged _ _ => exact ⟨_, Arena.stands_of_expr found', isLetter⟩
    | operand promotes => exact absurd (isLetter'.1 ▸ promotes.mem) List.not_mem_nil
    | collapsed _ stands isLeaf notEmpty => exact ⟨_, stands, isLeaf, notEmpty isLetter'.1⟩
    | inner _ => cases isLetter'.1
  · have isTight' := related.isTight (same found' ▸ isTight)
    cases rebuilds with
    | copied isCopy _ => exact ⟨_, Arena.stands_of_expr isCopy, isTight'.withStar⟩
    | unchanged _ _ => exact ⟨_, Arena.stands_of_expr found', isTight⟩
    | operand promotes =>
        cases promotes with
        | tight _ _ isTight => exact isTight
        | once => exact absurd rfl isTight'
        | _ => exact isTight'.elim
    | collapsed _ stands isLeaf _ => exact ⟨_, stands, Expr.isTight_of_leaf isLeaf⟩
    | inner _ => exact isTight'.elim
  · obtain rfl := same found'
    cases related with
    | cat isFirst isSecond => exact sequels_of_rebuilds wellFormed found isFirst isSecond rebuilds

/-- What a rule makes of an orderly expression is a copy, or it is what becomes of something below
the expression. -/
theorem turnsInto_of_rebuilds (wellFormed : grammar.arena.WellFormed) (tracked : grammar.Tracked)
    (unbound : ∀ {key link}, grammar.Running key link → grammar.arena.slot? link = some (.link none))
    (orderly : grammar.arena.Orderly id) (found : grammar.arena.slot? id = some (.expr e))
    (related : e.Related (fun o o' => grammar.Reflects (grammar.arena.resolve o) o') e')
    (rebuilds : grammar.arena.Rebuilds id e' value) : grammar.TurnsInto id value := by
  have reaches_self : grammar.arena.Reaches id id := by
    have reaches := grammar.arena.reaches_self id
    rwa [Arena.resolve_of_expr found] at reaches
  have isOperand : ∀ {o o'}, o ∈ e.operands → grammar.Reflects (grammar.arena.resolve o) o' →
      grammar.TurnsInto id o' := fun member reflects =>
    tracked.turns wellFormed orderly (wellFormed.reaches_resolve_operand found member) reflects
  cases rebuilds with
  | copied isCopy later =>
      refine .copied reaches_self (.inl rfl) ?_
      rw [Arena.resolve_of_expr isCopy]
      exact ⟨.inr later, .straight found isCopy related⟩
  | @unchanged e₀ found' noStar =>
      obtain rfl : e = e₀ := by simpa [found] using found'
      refine .copied reaches_self (.inl rfl) ?_
      rw [Arena.resolve_of_expr found]
      refine ⟨.inl rfl, .straight found (by rwa [noStar]) ?_⟩
      refine (Expr.Related.map_right.mp related).imp_of_mem fun o member o' reflects => ?_
      exact reflects.of_resolve_eq (wellFormed.resolve_resolve o').symm
  | operand promotes =>
      obtain ⟨o, member', reflects⟩ :=
        Arena.exists_related_left related.operands _ promotes.mem
      exact isOperand member' reflects
  | collapsed _ stands isLeaf _ =>
      exact .closed (wellFormed.closed_of_expr stands (by simp [isLeaf]))
  | @inner lang inner stands =>
      cases related with
      | @not o _ reflects =>
          have reaches := wellFormed.reaches_resolve_operand found (o := o) (by simp [Expr.operands])
          have same : grammar.arena.resolve (grammar.arena.resolve inner) =
              grammar.arena.resolve inner := wellFormed.resolve_resolve inner
          cases isOperand (by simp [Expr.operands]) reflects with
          | closed closed =>
              have member : inner ∈ (grammar.arena.get (grammar.arena.resolve lang)).operands := by
                rw [wellFormed.get_resolve, Arena.get_of_stands stands]
                simp [Expr.operands]
              refine .closed ?_
              rw [same]
              exact (closed.of_mem member).resolve
          | @linked key link _ running isLink =>
              -- No rule looks behind a link.
              have final := unbound running
              have isLast : grammar.arena.resolve link = link :=
                Arena.resolve_of_final (by simp [final])
              rw [← isLast, ← isLink, stands] at final
              cases final
          | @copied origin onward _ copies =>
              have member : inner ∈ (Expr.not inner).operands := by simp [Expr.operands]
              obtain ⟨e₁, o₁, found₁, isOperand₁, reflects₁⟩ :=
                copies.repeats.exists_operand stands member
              refine tracked.turns wellFormed orderly ?_ (reflects₁.of_resolve_eq same)
              exact wellFormed.reaches_trans onward
                (wellFormed.reaches_resolve_operand found₁ isOperand₁)

/-- What a rule makes of an orderly union whose operands were exchanged. -/
theorem turnsInto_of_swapped (wellFormed : grammar.arena.WellFormed) (tracked : grammar.Tracked)
    (orderly : grammar.arena.Orderly id) (isOpen : ¬ grammar.arena.Closed id)
    (found : grammar.arena.slot? id = some (.expr (.alt left right)))
    (isLeft : grammar.Reflects (grammar.arena.resolve left) l)
    (isRight : grammar.Reflects (grammar.arena.resolve right) r)
    (isLeaf : grammar.arena.IsLeaf right) (closed : grammar.arena.Closed r)
    (rebuilds : grammar.arena.Rebuilds id (.alt r l) value) : grammar.TurnsInto id value := by
  have reaches_self : grammar.arena.Reaches id id := by
    have reaches := grammar.arena.reaches_self id
    rwa [Arena.resolve_of_expr found] at reaches
  have isOperand : ∀ {o o'}, o ∈ (Expr.alt left right).operands →
      grammar.Reflects (grammar.arena.resolve o) o' → grammar.TurnsInto id o' :=
    fun member reflects =>
      tracked.turns wellFormed orderly (wellFormed.reaches_resolve_operand found member) reflects
  generalize isAlt : Expr.alt r l = e at rebuilds
  cases rebuilds with
  | copied isCopy later =>
      subst isAlt
      refine .copied reaches_self (.inl rfl) ?_
      rw [Arena.resolve_of_expr isCopy]
      exact ⟨.inr later, .swapped found isCopy isLeft isRight isLeaf⟩
  | @unchanged e₀ found' _ =>
      obtain rfl : e₀ = .alt left right := by simpa [found] using found'.symm
      obtain ⟨rfl, -⟩ : r = grammar.arena.resolve left ∧ l = grammar.arena.resolve right := by
        simpa [Expr.map] using isAlt
      -- The second operand is a tree, so that the first one is not.
      exact absurd (wellFormed.closed_of_alt found closed (isLeaf.closed wellFormed)) isOpen
  | operand promotes =>
      subst isAlt
      have member : value = r ∨ value = l := by simpa [Expr.operands] using promotes.mem
      rcases member with rfl | rfl
      · exact isOperand (by simp [Expr.operands]) isRight
      · exact isOperand (by simp [Expr.operands]) isLeft
  | collapsed isTight _ _ _ =>
      subst isAlt
      exact isTight.elim
  | inner _ => cases isAlt

end Grammar

end Residual
