import Residual.Proofs.Grammar.NormalForm.Convergence

/-!
# Cycles and their copies

Between two calls nothing is being simplified, and what is left of an orderly expression in its
simplified form are copies: each expression below the simplified form that is not a tree is a copy of
one below the original, and of no two of them.  So their number never grows, and neither does the
number of the unions among them whose operands may be exchanged.  While both stay the same, the
simplified form is the same graph with other trees on its rim.

From simplified form to simplified form each tree on the rim is then rewritten, so that they settle,
and the numbers of the copies grow.
-/

set_option autoImplicit false

namespace Residual

open Memo

namespace Arena

variable {arena : Arena} {root id o : ExprId} {e : Expr ExprId}

theorem child_of_expr (found : arena.slot? id = some (.expr e)) (member : o ∈ e.operands) :
    arena.Child id (arena.resolve o) := by
  refine mem_operands_iff.mpr ⟨o, ?_, rfl⟩
  rwa [get_of_stands (stands_of_expr found)]

open Classical in
/-- The expressions that can be reached and are not trees. -/
noncomputable def recurring (arena : Arena) (root : ExprId) : Finset ExprId :=
  arena.ids.filter fun id => arena.Reaches root id ∧ ¬ arena.Closed id

open Classical in
theorem WellFormed.mem_recurring (wellFormed : arena.WellFormed) (inside : root.number < arena.size) :
    id ∈ arena.recurring root ↔ arena.Reaches root id ∧ ¬ arena.Closed id := by
  refine Finset.mem_filter.trans (and_iff_right_iff_imp.mpr fun ⟨reaches, _⟩ => ?_)
  exact mem_ids.mpr (wellFormed.reaches_lt inside reaches)

open Classical in
/-- The recurring unions whose operands may be exchanged. -/
noncomputable def leaning (arena : Arena) (root : ExprId) : Finset ExprId :=
  (arena.recurring root).filter fun id => ∃ left right,
    arena.slot? id = some (.expr (.alt left right)) ∧ ¬ arena.IsLeaf left

open Classical in
theorem mem_leaning : id ∈ arena.leaning root ↔ id ∈ arena.recurring root ∧ ∃ left right,
    arena.slot? id = some (.expr (.alt left right)) ∧ ¬ arena.IsLeaf left :=
  Finset.mem_filter

/-- The trees where the recurring part of the graph below an expression ends. -/
structure OnRim (arena : Arena) (root id : ExprId) : Prop where
  closed : arena.Closed id
  met : id = arena.resolve root ∨ ∃ x ∈ arena.recurring root, arena.Child x id

theorem OnRim.reaches (onRim : arena.OnRim root id) (wellFormed : arena.WellFormed)
    (inside : root.number < arena.size) : arena.Reaches root id := by
  rcases onRim.met with rfl | ⟨x, member, child⟩
  · exact arena.reaches_self root
  · exact ((wellFormed.mem_recurring inside).mp member).1.tail child

end Arena

namespace Grammar

variable {grammar : Grammar} {limit : Nat} {x y z n w o o' value value' : ExprId}
  {e e' : Expr ExprId}

/-- Nothing is being simplified, and what is known of simplified forms is right. -/
structure AtRest (limit : Nat) (grammar : Grammar) : Prop where
  wellFormed : grammar.arena.WellFormed
  normal : grammar.Normal limit
  idle : ∀ {key link : ExprId}, ¬ grammar.Running key link

namespace AtRest

variable (atRest : grammar.AtRest limit)

include atRest

theorem told_of_reflects (reflects : grammar.Reflects x y) :
    ∃ value, grammar.SimplifiesTo x value ∧ grammar.arena.resolve y = grammar.arena.resolve value := by
  obtain ⟨value, told | running, same⟩ := reflects
  · exact ⟨value, told, same⟩
  · exact absurd running atRest.idle

/-- An expression has one simplified form. -/
theorem resolve_unique (reflects : grammar.Reflects x y) (reflects' : grammar.Reflects x z) :
    grammar.arena.resolve y = grammar.arena.resolve z := by
  obtain ⟨value, told, same⟩ := atRest.told_of_reflects reflects
  obtain ⟨value', told', same'⟩ := atRest.told_of_reflects reflects'
  rw [same, same', ← next_eq told, ← next_eq told']

/-- The simplified form of a tree is what it is rewritten to. -/
theorem resolve_eq_next (reflects : grammar.Reflects x y) (closed : grammar.arena.Closed x) :
    grammar.arena.resolve y = grammar.rewriting.next x ∧ grammar.rewriting.Active x ∧
      grammar.arena.Closed (grammar.rewriting.next x) := by
  obtain ⟨value, told, same⟩ := atRest.told_of_reflects reflects
  have entry := atRest.normal.entry told closed
  rw [next_eq told]
  exact ⟨same.trans entry.resolved, ⟨closed, value, told⟩, entry.closed⟩

theorem closed_of_reflects (reflects : grammar.Reflects x y) (closed : grammar.arena.Closed x) :
    grammar.arena.Closed (grammar.arena.resolve y) := by
  obtain ⟨same, _, isClosed⟩ := atRest.resolve_eq_next reflects closed
  exact same ▸ isClosed

/-- The simplified form of an orderly expression is a tree or a copy of something below. -/
theorem closed_or_copied (orderly : grammar.arena.Orderly x) (resolved : grammar.arena.resolve x = x)
    (reflects : grammar.Reflects x y) : grammar.arena.Closed (grammar.arena.resolve y) ∨
      ∃ origin, grammar.arena.Reaches x origin ∧ grammar.Reflects origin y ∧
        grammar.Duplicates origin (grammar.arena.resolve y) := by
  have reaches := grammar.arena.reaches_self x
  rw [resolved] at reaches
  have tracked : grammar.Tracked := atRest.normal.tracked
  cases tracked.turns atRest.wellFormed orderly reaches reflects with
  | closed closed => exact .inl closed
  | linked _ running _ => exact absurd running atRest.idle
  | copied reaches isOrigin duplicates =>
      refine .inr ⟨_, reaches, ?_, duplicates⟩
      rcases isOrigin with rfl | isOrigin
      · exact reflects
      · exact isOrigin

theorem reflects_resolve (reflects : grammar.Reflects x y) :
    grammar.Reflects x (grammar.arena.resolve y) :=
  reflects.of_resolve_eq (atRest.wellFormed.resolve_resolve y)

/-- The simplified form of an operator without operands has none either. -/
theorem isLeaf_of_reflects (reflects : grammar.Reflects (grammar.arena.resolve o) y)
    (isLeaf : grammar.arena.IsLeaf o) : grammar.arena.IsLeaf y := by
  obtain ⟨value, told, same⟩ := atRest.told_of_reflects reflects
  have closed := isLeaf.closed atRest.wellFormed
  obtain ⟨e, stands, isLeaf⟩ := isLeaf
  refine Arena.IsLeaf.of_resolve_eq ((atRest.normal.entry told closed).isLeaf ?_) same
  rw [closed.view_of_expr stands, Expr.operands_map, isLeaf]
  rfl

/-- The simplified form of something firm is firm. -/
theorem firm_of_reflects (reflects : grammar.Reflects (grammar.arena.resolve o) y)
    (firm : grammar.arena.Firm o) (orderly : grammar.arena.Orderly (grammar.arena.resolve o)) :
    grammar.arena.Firm y := by
  have tracked : grammar.Tracked := atRest.normal.tracked
  exact tracked.firm (fun running => absurd running atRest.idle) atRest.wellFormed firm orderly
    reflects

end AtRest

/-- The second expression is the simplified form of the first one, which is orderly. -/
structure HasForm (limit : Nat) (grammar : Grammar) (x y : ExprId) : Prop where
  atRest : grammar.AtRest limit
  orderly : grammar.arena.Orderly x
  resolved : grammar.arena.resolve x = x
  inside : x.number < grammar.arena.size
  reflects : grammar.Reflects x y
  resolved' : grammar.arena.resolve y = y
  inside' : y.number < grammar.arena.size

/-- One expression recurs below `x`, and its copy `n` recurs below `y`. -/
structure IsCopy (grammar : Grammar) (x y w n : ExprId) : Prop where
  original : w ∈ grammar.arena.recurring x
  copy : n ∈ grammar.arena.recurring y
  reflects : grammar.Reflects w n
  duplicates : grammar.Duplicates w n

namespace HasForm

variable (hasForm : grammar.HasForm limit x y)

include hasForm

theorem mem_recurring : w ∈ grammar.arena.recurring x ↔
    grammar.arena.Reaches x w ∧ ¬ grammar.arena.Closed w :=
  hasForm.atRest.wellFormed.mem_recurring hasForm.inside

theorem mem_recurring' : n ∈ grammar.arena.recurring y ↔
    grammar.arena.Reaches y n ∧ ¬ grammar.arena.Closed n :=
  hasForm.atRest.wellFormed.mem_recurring hasForm.inside'

/-- What is below a simplified form and no tree is a copy. -/
theorem exists_origin (reaches : grammar.arena.Reaches y n) (isOpen : ¬ grammar.arena.Closed n) :
    ∃ z, grammar.arena.Reaches x z ∧ grammar.Reflects z n ∧ grammar.Duplicates z n := by
  obtain ⟨atRest, orderly, resolved, _, reflects, _, _⟩ := hasForm
  have wellFormed := atRest.wellFormed
  induction reaches with
  | refl =>
      obtain ⟨z, reaches, isOrigin, duplicates⟩ :=
        (atRest.closed_or_copied orderly resolved reflects).resolve_left isOpen
      exact ⟨z, reaches, atRest.reflects_resolve isOrigin, duplicates⟩
  | @tail n n' _ child inductionHypothesis =>
      obtain ⟨o', member, rfl⟩ := Arena.mem_operands_iff.mp child
      have parentOpen : ¬ grammar.arena.Closed n := fun closed =>
        isOpen (closed.of_mem member).resolve
      obtain ⟨z, reaches, _, duplicates⟩ := inductionHypothesis parentOpen
      obtain ⟨e', found'⟩ := duplicates.repeats.exists_expr
      rw [Arena.get_of_stands (Arena.stands_of_expr found')] at member
      obtain ⟨e, o, found, isOperand, reflects'⟩ := duplicates.repeats.exists_operand found' member
      have onward : grammar.arena.Reaches x (grammar.arena.resolve o) :=
        wellFormed.reaches_trans reaches (wellFormed.reaches_resolve_operand found isOperand)
      obtain ⟨z', reaches', isOrigin, duplicates'⟩ := (atRest.closed_or_copied
        (orderly.of_reaches wellFormed onward) (wellFormed.resolve_resolve o)
        reflects').resolve_left isOpen
      exact ⟨z', wellFormed.reaches_trans onward reaches', atRest.reflects_resolve isOrigin,
        duplicates'⟩

/-- The originals are no trees either. -/
theorem exists_original (member : n ∈ grammar.arena.recurring y) :
    ∃ z, grammar.IsCopy x y z n := by
  obtain ⟨reaches, isOpen⟩ := hasForm.mem_recurring'.mp member
  obtain ⟨z, reaches', isOrigin, duplicates⟩ := hasForm.exists_origin reaches isOpen
  refine ⟨z, hasForm.mem_recurring.mpr ⟨reaches', fun closed => isOpen ?_⟩, member, isOrigin,
    duplicates⟩
  have isClosed := hasForm.atRest.closed_of_reflects isOrigin closed
  rwa [hasForm.atRest.wellFormed.resolve_of_reaches reaches] at isClosed

/-- The simplified form of an orderly expression is orderly. -/
theorem orderly' (defined : grammar.arena.Defined y) : grammar.arena.Orderly y where
  defined := defined
  heads {n left right} reaches found isOpen := by
    have atRest := hasForm.atRest
    obtain ⟨z, isCopy⟩ := hasForm.exists_original (hasForm.mem_recurring'.mpr ⟨reaches, isOpen⟩)
    obtain ⟨reaches', isOpen'⟩ := hasForm.mem_recurring.mp isCopy.original
    cases isCopy.duplicates.repeats with
    | @straight e e' found' isCopied related =>
        obtain rfl : e' = .alt left right :=
          Expr.withStar_eq_alt (by simpa [found] using isCopied.symm)
        cases related with
        | @alt left' right' _ _ isLeft isRight =>
            refine (hasForm.orderly.heads reaches' found' isOpen').imp
              (atRest.isLeaf_of_reflects isLeft)
              (.imp (fun firm => ?_) (atRest.isLeaf_of_reflects isRight))
            refine atRest.firm_of_reflects isLeft firm (hasForm.orderly.of_reaches atRest.wellFormed
              (atRest.wellFormed.reaches_trans reaches' ?_))
            exact atRest.wellFormed.reaches_resolve_operand found' (by simp [Expr.operands])
    | swapped found' isCopied isLeft isRight isLeaf =>
        cases found.symm.trans isCopied
        exact .inl (atRest.isLeaf_of_reflects isRight isLeaf)

/-- No repetition without a count recurs in a simplified form. -/
theorem ne_rep (member : n ∈ grammar.arena.recurring y) (lang : ExprId) :
    grammar.arena.slot? n ≠ some (.expr (.rep lang .infinite)) := by
  intro found
  obtain ⟨z, isCopy⟩ := hasForm.exists_original member
  cases isCopy.duplicates.repeats with
  | straight _ isCopied _ => exact Expr.withStar_ne_rep (by simpa [found] using isCopied.symm)
  | swapped _ isCopied _ _ _ => cases found.symm.trans isCopied

/-- An expression has one copy. -/
theorem copy_unique (isCopy : grammar.IsCopy x y w n) (reflects : grammar.Reflects w o') :
    grammar.arena.resolve o' = n := by
  have isResolved := hasForm.atRest.wellFormed.resolve_of_reaches
    (hasForm.mem_recurring'.mp isCopy.copy).1
  exact (hasForm.atRest.resolve_unique reflects isCopy.reflects).trans isResolved

/-- Two expressions have two copies, so that no more of them are left. -/
theorem exists_embedding : ∃ origin : ExprId → ExprId,
    Set.InjOn origin (grammar.arena.recurring y) ∧
    ∀ n ∈ grammar.arena.recurring y, grammar.IsCopy x y (origin n) n := by
  have exists_original : ∀ n, ∃ z, n ∈ grammar.arena.recurring y → grammar.IsCopy x y z n := by
    intro n
    by_cases member : n ∈ grammar.arena.recurring y
    · obtain ⟨z, isCopy⟩ := hasForm.exists_original member
      exact ⟨z, fun _ => isCopy⟩
    · exact ⟨n, fun isMember => absurd isMember member⟩
  choose origin isOriginal using exists_original
  refine ⟨origin, fun n member n' member' same => ?_, isOriginal⟩
  have isCopy' := isOriginal n' member'
  rw [← same] at isCopy'
  exact (hasForm.copy_unique (isOriginal n member) (isOriginal n member).reflects).symm.trans
    (hasForm.copy_unique isCopy' (isOriginal n member).reflects)

theorem card_recurring_le :
    (grammar.arena.recurring y).card ≤ (grammar.arena.recurring x).card := by
  obtain ⟨origin, injective, isOriginal⟩ := hasForm.exists_embedding
  exact Finset.card_le_card_of_injOn origin (fun n member => (isOriginal n member).original)
    injective

/-- A union whose operands may be exchanged is the copy of one. -/
theorem leaning_of_isCopy (isCopy : grammar.IsCopy x y w n) (leans : n ∈ grammar.arena.leaning y) :
    w ∈ grammar.arena.leaning x := by
  obtain ⟨_, left, right, found, notLeaf⟩ := Arena.mem_leaning.mp leans
  refine Arena.mem_leaning.mpr ⟨isCopy.original, ?_⟩
  cases isCopy.duplicates.repeats with
  | @straight e e' found' isCopied related =>
      obtain rfl : e' = .alt left right :=
        Expr.withStar_eq_alt (by simpa [found] using isCopied.symm)
      cases related with
      | alt isLeft _ =>
          exact ⟨_, _, found', fun isLeaf =>
            notLeaf (hasForm.atRest.isLeaf_of_reflects isLeft isLeaf)⟩
  | swapped _ isCopied _ isRight isLeaf =>
      cases found.symm.trans isCopied
      exact absurd (hasForm.atRest.isLeaf_of_reflects isRight isLeaf) notLeaf

theorem exists_leaning_embedding : ∃ origin : ExprId → ExprId,
    Set.InjOn origin (grammar.arena.leaning y) ∧ ∀ n ∈ grammar.arena.leaning y,
      origin n ∈ grammar.arena.leaning x ∧ grammar.IsCopy x y (origin n) n := by
  obtain ⟨origin, injective, isOriginal⟩ := hasForm.exists_embedding
  have recurs : ∀ {n}, n ∈ grammar.arena.leaning y → n ∈ grammar.arena.recurring y :=
    fun leans => (Arena.mem_leaning.mp leans).1
  refine ⟨origin, fun n leans n' leans' => injective (recurs leans) (recurs leans'),
    fun n leans => ?_⟩
  have isCopy := isOriginal n (recurs leans)
  exact ⟨hasForm.leaning_of_isCopy isCopy leans, isCopy⟩

theorem card_leaning_le : (grammar.arena.leaning y).card ≤ (grammar.arena.leaning x).card := by
  obtain ⟨origin, injective, isOriginal⟩ := hasForm.exists_leaning_embedding
  exact Finset.card_le_card_of_injOn origin (fun n leans => (isOriginal n leans).1) injective

/-- If as many unions are left whose operands may be exchanged, then no operands were. -/
theorem straight_of_isCopy
    (same : (grammar.arena.leaning y).card = (grammar.arena.leaning x).card)
    (isCopy : grammar.IsCopy x y w n) : ∃ e e', grammar.arena.slot? w = some (.expr e) ∧
      grammar.arena.slot? n = some (.expr e'.withStar) ∧
      e.Related (fun o o' => grammar.Reflects (grammar.arena.resolve o) o') e' := by
  cases isCopy.duplicates.repeats with
  | straight found isCopied related => exact ⟨_, _, found, isCopied, related⟩
  | @swapped left right l r found isCopied isLeft isRight isLeaf =>
      have atRest := hasForm.atRest
      have wellFormed := atRest.wellFormed
      have leans : w ∈ grammar.arena.leaning x := by
        refine Arena.mem_leaning.mpr ⟨isCopy.original, left, right, found, fun isLeaf' => ?_⟩
        exact (hasForm.mem_recurring.mp isCopy.original).2 (wellFormed.closed_of_alt found
          (isLeaf'.closed wellFormed) (isLeaf.closed wellFormed))
      obtain ⟨origin, injective, isOriginal⟩ := hasForm.exists_leaning_embedding
      obtain ⟨n', leans', rfl⟩ := Finset.surjOn_of_injOn_of_card_le origin
        (fun n leans => (isOriginal n leans).1) injective same.ge leans
      obtain rfl : n = n' := by
        rw [← hasForm.copy_unique (isOriginal n' leans').2 isCopy.reflects]
        exact (wellFormed.resolve_of_reaches (hasForm.mem_recurring'.mp isCopy.copy).1).symm
      obtain ⟨_, _, _, found', notLeaf⟩ := Arena.mem_leaning.mp leans'
      cases isCopied.symm.trans found'
      exact absurd (atRest.isLeaf_of_reflects isRight isLeaf) notLeaf

section Lasting

variable (same : (grammar.arena.recurring y).card = (grammar.arena.recurring x).card)

include same

/-- If as many are left as there were, then what a recurring expression was simplified to is its
copy. -/
theorem isCopy_of_reflects (member : w ∈ grammar.arena.recurring x)
    (reflects : grammar.Reflects w o') : grammar.IsCopy x y w (grammar.arena.resolve o') := by
  obtain ⟨origin, injective, isOriginal⟩ := hasForm.exists_embedding
  obtain ⟨n, isMember, rfl⟩ := Finset.surjOn_of_injOn_of_card_le origin
    (fun n member => (isOriginal n member).original) injective same.ge member
  have isCopy := isOriginal n isMember
  rwa [hasForm.copy_unique isCopy reflects]

/-- What leads to a tree is one, and is rewritten to it. -/
theorem rewritten_of_reflects {a : ExprId} (reaches : grammar.arena.Reaches x a)
    (reflects : grammar.Reflects a o') (closed : grammar.arena.Closed (grammar.arena.resolve o')) :
    grammar.arena.Closed a ∧ grammar.rewriting.Active a ∧
      grammar.rewriting.next a = grammar.arena.resolve o' := by
  by_cases isClosed : grammar.arena.Closed a
  · obtain ⟨isNext, active, _⟩ := hasForm.atRest.resolve_eq_next reflects isClosed
    exact ⟨isClosed, active, isNext.symm⟩
  · have isCopy := hasForm.isCopy_of_reflects same (hasForm.mem_recurring.mpr ⟨reaches, isClosed⟩)
      reflects
    exact absurd closed (hasForm.mem_recurring'.mp isCopy.copy).2

/-- The rim of the simplified form is what the rim is rewritten to. -/
theorem exists_onRim (onRim : grammar.arena.OnRim y n) : ∃ a, grammar.arena.OnRim x a ∧
    grammar.rewriting.Active a ∧ grammar.rewriting.next a = n := by
  rcases onRim.met with isRoot | ⟨m, member, child⟩
  · subst isRoot
    have reaches := grammar.arena.reaches_self x
    rw [hasForm.resolved] at reaches
    obtain ⟨closed, rewritten⟩ := hasForm.rewritten_of_reflects same reaches hasForm.reflects
      onRim.closed
    exact ⟨x, ⟨closed, .inl hasForm.resolved.symm⟩, rewritten⟩
  · obtain ⟨z, isCopy⟩ := hasForm.exists_original member
    obtain ⟨o', isOperand, rfl⟩ := Arena.mem_operands_iff.mp child
    obtain ⟨e', found'⟩ := isCopy.duplicates.repeats.exists_expr
    rw [Arena.get_of_stands (Arena.stands_of_expr found')] at isOperand
    obtain ⟨e, o, found, isOperand, reflects⟩ :=
      isCopy.duplicates.repeats.exists_operand found' isOperand
    have isChild := Arena.child_of_expr found isOperand
    obtain ⟨closed, rewritten⟩ := hasForm.rewritten_of_reflects same
      ((hasForm.mem_recurring.mp isCopy.original).1.tail isChild) reflects onRim.closed
    exact ⟨_, ⟨closed, .inr ⟨z, isCopy.original, isChild⟩⟩, rewritten⟩

variable (fixed : ∀ a, grammar.arena.OnRim x a → grammar.rewriting.Fixed a)

include fixed

/-- If the rim does not change then the two graphs are the same. -/
theorem isBisimulation
    (leaning : (grammar.arena.leaning y).card = (grammar.arena.leaning x).card)
    (plain : ∀ w ∈ grammar.arena.recurring x, ∀ lang,
      grammar.arena.slot? w ≠ some (.expr (.rep lang .infinite))) :
    grammar.arena.IsBisimulation fun w n => w = n ∨ grammar.IsCopy x y w n := by
  refine .intro fun w n related => related.imp_right fun isCopy => ?_
  obtain ⟨e, e', found, found', related⟩ := hasForm.straight_of_isCopy leaning isCopy
  have noStar : e'.withStar = e' := by
    refine Expr.withStar_eq_self fun lang isRep => ?_
    subst isRep
    cases related with
    | rep _ _ => exact plain w isCopy.original _ found
  rw [noStar] at found'
  refine ⟨e, e', found, found', related.shape_eq, (Arena.forall₂_mem related.operands).imp ?_⟩
  rintro o o' ⟨isOperand, _, reflects⟩
  have isChild := Arena.child_of_expr found isOperand
  by_cases closed : grammar.arena.Closed (grammar.arena.resolve o)
  · left
    rw [(hasForm.atRest.resolve_eq_next reflects closed).1]
    exact (fixed _ ⟨closed, .inr ⟨w, isCopy.original, isChild⟩⟩).symm
  · right
    have reaches := (hasForm.mem_recurring.mp isCopy.original).1.tail isChild
    exact hasForm.isCopy_of_reflects same (hasForm.mem_recurring.mpr ⟨reaches, closed⟩) reflects

/-- It relates the expression to its simplified form. -/
theorem eq_or_isCopy : x = y ∨ grammar.IsCopy x y x y := by
  have reaches := grammar.arena.reaches_self x
  rw [hasForm.resolved] at reaches
  by_cases closed : grammar.arena.Closed x
  · left
    rw [← hasForm.resolved', (hasForm.atRest.resolve_eq_next hasForm.reflects closed).1]
    exact (fixed x ⟨closed, .inl hasForm.resolved.symm⟩).symm
  · right
    have isCopy := hasForm.isCopy_of_reflects same (hasForm.mem_recurring.mpr ⟨reaches, closed⟩)
      hasForm.reflects
    rwa [hasForm.resolved'] at isCopy

end Lasting

end HasForm

/-! ## Chains of simplified forms -/

variable {length start more k : Nat} {form : Nat → ExprId}

/-- Each expression is the simplified form of the one before. -/
def Chain (limit : Nat) (grammar : Grammar) (form : Nat → ExprId) (length : Nat) : Prop :=
  ∀ k < length, grammar.HasForm limit (form k) (form (k + 1))

namespace Chain

variable (chain : grammar.Chain limit form length)

include chain

/-- While nothing is lost, a tree on the rim is what one was rewritten to. -/
theorem exists_onRim (within : start + more ≤ length)
    (same : ∀ k < more, (grammar.arena.recurring (form (start + k + 1))).card =
      (grammar.arena.recurring (form (start + k))).card)
    (onRim : grammar.arena.OnRim (form (start + more)) n) :
    ∃ a, grammar.arena.OnRim (form start) a ∧
      (∀ k < more, grammar.rewriting.Active (grammar.rewriting.next^[k] a)) ∧
      grammar.rewriting.next^[more] a = n := by
  induction more generalizing n with
  | zero => exact ⟨n, onRim, fun k less => absurd less (Nat.not_lt_zero k), rfl⟩
  | succ more inductionHypothesis =>
      obtain ⟨b, onRim', active, rfl⟩ := (chain (start + more) within).exists_onRim
        (same more (Nat.lt_succ_self more)) onRim
      obtain ⟨a, isStart, earlier, rfl⟩ := inductionHypothesis (Nat.le_of_succ_le within)
        (fun k less => same k (Nat.lt_succ_of_lt less)) onRim'
      refine ⟨a, isStart, fun k less => ?_, Function.iterate_succ_apply' ..⟩
      rcases Nat.lt_succ_iff_lt_or_eq.mp less with less | rfl
      · exact earlier k less
      · exact active

/-- After as many rounds as the trees may need the rim does not change any more. -/
theorem fixed_of_onRim {mass : Nat} (within : start + more ≤ length)
    (same : ∀ k < more, (grammar.arena.recurring (form (start + k + 1))).card =
      (grammar.arena.recurring (form (start + k))).card)
    (bounded : ∀ a, grammar.arena.OnRim (form start) a → (grammar.arena.tree a).mass ≤ mass)
    (enough : Rewriting.roundBound mass ≤ more) (inside : start < length)
    (onRim : grammar.arena.OnRim (form (start + more)) n) : grammar.rewriting.Fixed n := by
  obtain ⟨a, isStart, active, rfl⟩ := chain.exists_onRim within same onRim
  have lawful := (chain _ inside).atRest.normal.lawful
  obtain ⟨k, less, fixed⟩ := Rewriting.settling lawful mass a (bounded a isStart)
    fun k less => active k (less.trans_le enough)
  exact Rewriting.fixed_of_le fixed (less.le.trans enough)

/-- A copy has a number that is greater than that of the round, unless it is the original. -/
theorem later (inside : k < length) (member : w ∈ grammar.arena.recurring (form k))
    (reflects : grammar.Reflects w n) (resolved : grammar.arena.resolve n = n)
    (duplicates : grammar.Duplicates w n) : n = w ∨ k < n.number := by
  induction k generalizing w n with
  | zero => exact duplicates.later.imp_right (Nat.zero_lt_of_lt ·)
  | succ k inductionHypothesis =>
      have hasForm := chain k (Nat.lt_of_succ_lt inside)
      obtain ⟨z, isCopy⟩ := hasForm.exists_original member
      have isResolved := hasForm.atRest.wellFormed.resolve_of_reaches
        (hasForm.mem_recurring'.mp member).1
      rcases inductionHypothesis (Nat.lt_of_succ_lt inside) isCopy.original isCopy.reflects
        isResolved isCopy.duplicates with rfl | grown
      · have same := hasForm.atRest.resolve_unique reflects isCopy.reflects
        rw [resolved, isResolved] at same
        exact .inl same
      · exact duplicates.later.imp_right fun less => by omega

theorem later_of_isCopy (inside : k < length)
    (isCopy : grammar.IsCopy (form k) (form (k + 1)) w n) : n = w ∨ k < n.number :=
  chain.later inside isCopy.original isCopy.reflects
    ((chain _ inside).atRest.wellFormed.resolve_of_reaches
      ((chain _ inside).mem_recurring'.mp isCopy.copy).1) isCopy.duplicates

end Chain

end Grammar

end Residual
