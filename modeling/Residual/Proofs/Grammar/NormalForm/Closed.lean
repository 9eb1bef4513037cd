import Residual.Proofs.Grammar.NormalForm.Course

/-!
# Simplification of closed expressions

A step for a closed expression gives an answer that was made by the rules.  The steps for other
expressions leave what is known of closed expressions as it is.
-/

set_option autoImplicit false

namespace Residual.Grammar

open Memo

variable {base state between after : Grammar} {limit : Nat}
  {id x y key operand simple value left right simpleLeft simpleRight l r l' r' : ExprId}
  {e e' : Expr ExprId}

@[simp]
theorem ensures_shape (post : Option (Expr ExprId) → Grammar → Prop) :
    Ensures (shape? id) state post ↔ post (state.arena.get? id) state := by
  unfold shape?
  simp only [ensures_bind, ensures_get, ensures_pure]

@[simp]
theorem ensures_unchanged (post : Bool → Grammar → Prop) :
    Ensures (unchanged x y) state post ↔ post (state.arena.resolve x == y) state := by
  unfold unchanged
  simp only [ensures_bind, ensures_get, ensures_pure]
  rfl

theorem Inherits.empty (wellFormed : state.arena.WellFormed) : state.Inherits x .empty :=
  .of_expr wellFormed wellFormed.empty (by simp [Expr.operands])

/-- The operands of what an expression stands for. -/
theorem Inherits.resolve (inherits : state.Inherits x y) (known : state.arena.get? y = some e)
    {o : ExprId} (member : o ∈ e.operands) : state.Inherits x (state.arena.resolve o) := by
  refine inherits.trans (.of_operand inherits.closed ?_)
  cases known.symm.trans inherits.closed.get?
  rw [inherits.closed.view_eq, Expr.operands_map]
  exact List.mem_map_of_mem member

/-! ## Answers -/

/-- What was made of an operator other than a union, with simplified operands. -/
structure Reduced (grammar : Grammar) (x : ExprId) (e : Expr ExprId) (y : ExprId) : Prop
    extends Inherits grammar x y where
  made : Tree.contract (e.map grammar.arena.tree) = some (grammar.arena.tree y) ∨
    Tree.contract (e.map grammar.arena.tree) = none ∧ grammar.arena.view y = e ∧
      (e = grammar.arena.view x → y = x)

/-- The answer for an operator other than a union whose operands were simplified. -/
structure Finishes (limit : Nat) (base state : Grammar) (x : ExprId) (e : Expr ExprId) (y : ExprId)
    (after : Grammar) : Prop where
  onwards : Onwards limit base state after
  inside : y.number < after.arena.size
  reduced : state.arena.Closed x → (∀ o ∈ e.operands, state.Inherits x o) → after.Reduced x e y

/-- The answer for a union of `left` and `right` whose operands were simplified. -/
structure Unites (limit : Nat) (base state : Grammar) (x left right simpleLeft simpleRight y : ExprId)
    (after : Grammar) : Prop where
  onwards : Onwards limit base state after
  inside : y.number < after.arena.size
  joins : state.arena.Closed x → state.Inherits x simpleLeft → state.Inherits x simpleRight →
    after.Inherits x y ∧ ∃ l r, after.Arranges simpleLeft simpleRight l r ∧
      after.Joins x (state.arena.resolve left) (state.arena.resolve right) l r y

namespace Course

variable (course : Course limit base state)

include course

/-! ## Operators other than unions -/

/-- A rule leads to something that is there already. -/
theorem finishes_contract (inside : value.number < state.arena.size)
    (inherits : state.arena.Closed id → (∀ o ∈ e.operands, state.Inherits id o) →
      state.Inherits id value)
    (contracts : (∀ o ∈ e.operands, state.Inherits id o) →
      Tree.contract (e.map state.arena.tree) = some (state.arena.tree value)) :
    Finishes limit base state id e value state :=
  ⟨course.refl, inside, fun closed operands =>
    ⟨inherits closed operands, .inl (contracts operands)⟩⟩

/-- A rule leads to `ε`, because of what the operand stands for. -/
theorem finishes_empty (member : simple ∈ e.operands) (known : state.arena.get? simple = some e')
    (contracts : state.arena.tree simple = .node (e'.map state.arena.tree) →
      Tree.contract (e.map state.arena.tree) = some (.node .empty)) :
    Finishes limit base state id e .empty state := by
  have wellFormed := course.side.wellFormed
  refine course.finishes_contract wellFormed.empty_lt_size (fun _ _ => .empty wellFormed) ?_
  intro operands
  rw [wellFormed.tree_empty]
  exact contracts ((operands simple member).closed.tree_of_get? known)

/-- A rule leads to the operand, because of what it stands for. -/
theorem finishes_operand (inside : simple.number < state.arena.size) (member : simple ∈ e.operands)
    (known : state.arena.get? simple = some e')
    (contracts : state.arena.tree simple = .node (e'.map state.arena.tree) →
      Tree.contract (e.map state.arena.tree) = some (.node (e'.map state.arena.tree))) :
    Finishes limit base state id e simple state := by
  refine course.finishes_contract inside (fun _ operands => operands simple member) ?_
  intro operands
  have isTree := (operands simple member).closed.tree_of_get? known
  rw [contracts isTree, isTree]

/-- No rule applies and no operand has changed. -/
theorem finishes_keep (found : state.arena.slot? id = some (.expr e'))
    (same : e'.map state.arena.resolve = e)
    (none : (∀ o ∈ e.operands, state.Inherits id o) →
      Tree.contract (e.map state.arena.tree) = none) : Finishes limit base state id e id state := by
  refine ⟨course.refl, Arena.lt_size_of_slot? found, fun closed operands => ?_⟩
  refine ⟨.refl closed (Arena.resolve_of_expr found), .inr ⟨none operands, ?_, fun _ => rfl⟩⟩
  exact (closed.view_of_expr found).trans same

/-- Expressions with simplified operands are seen as they are. -/
theorem view_pushed (found : state.arena.slot? y = some (.expr e))
    (operands : ∀ o ∈ e.operands, state.Inherits x o) : state.arena.view y = e := by
  have inherits := Inherits.of_expr course.side.wellFormed found operands
  rw [inherits.closed.view_of_expr found]
  exact (Expr.map_congr fun o member => (operands o member).resolved).trans (Expr.map_id e)

/-- No rule applies and some operand has changed. -/
theorem ensures_rebuilt (found : state.arena.slot? id = some (.expr e'))
    (changed : e'.map state.arena.resolve ≠ e)
    (inside : ∀ o ∈ e.operands, o.number < state.arena.size)
    (none : (∀ o ∈ e.operands, state.Inherits id o) →
      Tree.contract (e.map state.arena.tree) = none) :
    Ensures (liftM (push e) : Eval Grammar ExprId) state (Finishes limit base state id e) := by
  refine (course.ensures_push inside).mono ?_
  rintro value after ⟨onwards, isInside, isPushed, _⟩
  refine ⟨onwards, isInside, fun closed operands => ?_⟩
  have retains := onwards.retains
  have operands' : ∀ o ∈ e.operands, after.Inherits id o := fun o member =>
    retains.inherits (operands o member)
  refine ⟨.of_expr onwards.course.side.wellFormed isPushed operands', .inr ⟨?_, ?_, fun same => ?_⟩⟩
  · rw [Expr.map_congr fun o member => retains.tree_eq (operands o member).closed]
    exact none operands
  · exact onwards.course.view_pushed isPushed operands'
  · rw [retains.view_eq closed, closed.view_of_expr found] at same
    exact absurd same.symm changed

variable (e e') in
/-- A rule leads to a new expression. -/
theorem ensures_contracted (sameOperands : e'.operands = e.operands)
    (inside : ∀ o ∈ e.operands, o.number < state.arena.size)
    (contracts : Tree.contract (e.map state.arena.tree) = some (.node (e'.map state.arena.tree))) :
    Ensures (liftM (push e') : Eval Grammar ExprId) state (Finishes limit base state id e) := by
  refine (course.ensures_push (sameOperands ▸ inside)).mono ?_
  rintro value after ⟨onwards, isInside, isPushed, _⟩
  refine ⟨onwards, isInside, fun closed operands => ?_⟩
  have retains := onwards.retains
  have operands' : ∀ o ∈ e'.operands, after.Inherits id o := fun o member =>
    retains.inherits (operands o (sameOperands ▸ member))
  have inherits := Inherits.of_expr onwards.course.side.wellFormed isPushed operands'
  have sameTree : ∀ o ∈ e.operands, after.arena.tree o = state.arena.tree o := fun o member =>
    retains.tree_eq (operands o member).closed
  refine ⟨inherits, .inl ?_⟩
  rw [Expr.map_congr sameTree, contracts, inherits.closed.tree_eq_node,
    onwards.course.view_pushed isPushed operands',
    Expr.map_congr fun o member => sameTree o (sameOperands ▸ member)]

theorem ensures_rebuild (found : state.arena.slot? id = some (.expr e'))
    (sameShape : e'.shape = e.shape) (isOperand : e'.operands = [operand])
    (isOperand' : e.operands = [simple]) (inside : simple.number < state.arena.size)
    (none : ∀ {e₀}, state.arena.get? simple = some e₀ →
      state.arena.tree simple = .node (e₀.map state.arena.tree) →
      Tree.contract (e.map state.arena.tree) = none) :
    Ensures (rebuild id operand simple e) state (Finishes limit base state id e) := by
  have unchanged_iff : state.arena.resolve operand = simple ↔ e'.map state.arena.resolve = e := by
    constructor
    · rintro rfl
      exact Expr.ext_of_shape (by simpa using sameShape) (by simp [isOperand, isOperand'])
    · rintro rfl
      simpa [isOperand] using isOperand'
  have none : (∀ o ∈ e.operands, state.Inherits id o) →
      Tree.contract (e.map state.arena.tree) = Option.none := fun operands =>
    have closed := (operands simple (by simp [isOperand'])).closed
    none closed.get? (closed.tree_of_get? closed.get?)
  unfold rebuild
  simp only [ensures_bind, ensures_unchanged]
  split
  · rename_i isUnchanged
    exact (ensures_pure _ _).mpr
      (course.finishes_keep found (unchanged_iff.mp (beq_iff_eq.mp isUnchanged)) none)
  · rename_i isChanged
    refine course.ensures_rebuilt found (fun same => isChanged ?_) ?_ none
    · exact beq_iff_eq.mpr (unchanged_iff.mpr same)
    · simpa [isOperand'] using inside

theorem ensures_simplifyCat (found : state.arena.slot? id = some (.expr (.cat left right)))
    (inside : simpleLeft.number < state.arena.size)
    (inside' : simpleRight.number < state.arena.size) :
    Ensures (simplifyCat id left right simpleLeft simpleRight) state
      (Finishes limit base state id (.cat simpleLeft simpleRight)) := by
  have both : (∀ o ∈ (Expr.cat simpleLeft simpleRight).operands, state.Inherits id o) →
      state.Inherits id simpleLeft ∧ state.Inherits id simpleRight := fun operands =>
    ⟨operands _ (by simp [Expr.operands]), operands _ (by simp [Expr.operands])⟩
  have atoms : (∀ o ∈ (Expr.cat simpleLeft simpleRight).operands, state.Inherits id o) →
      ((state.arena.tree simpleLeft = .node .nil ↔ state.arena.get? simpleLeft = some .nil) ∧
        (state.arena.tree simpleLeft = .node .empty ↔ state.arena.get? simpleLeft = some .empty)) ∧
      (state.arena.tree simpleRight = .node .nil ↔ state.arena.get? simpleRight = some .nil) ∧
        (state.arena.tree simpleRight = .node .empty ↔
          state.arena.get? simpleRight = some .empty) := fun operands =>
    ⟨(both operands).1.closed.tree_eq_atom_iff, (both operands).2.closed.tree_eq_atom_iff⟩
  unfold simplifyCat
  simp only [ensures_bind, ensures_shape]
  split
  · rename_i isNil
    refine (ensures_pure _ _).mpr (course.finishes_contract inside (fun _ operands =>
      (both operands).1) fun operands => ?_)
    exact Tree.contractCat_nil_left ((atoms operands).1.1.mpr isNil)
  · rename_i isNil _
    refine (ensures_pure _ _).mpr (course.finishes_contract inside' (fun _ operands =>
      (both operands).2) fun operands => ?_)
    exact Tree.contractCat_nil_right ((atoms operands).2.1.mpr isNil)
  · rename_i isEmpty notNil
    refine (ensures_pure _ _).mpr (course.finishes_contract inside' (fun _ operands =>
      (both operands).2) fun operands => ?_)
    exact Tree.contractCat_empty_left ((atoms operands).1.2.mpr isEmpty)
      fun isNil => notNil ((atoms operands).2.1.mp isNil)
  · rename_i isEmpty notNil _
    refine (ensures_pure _ _).mpr (course.finishes_contract inside (fun _ operands =>
      (both operands).1) fun operands => ?_)
    exact Tree.contractCat_empty_right ((atoms operands).2.2.mpr isEmpty)
      fun isNil => notNil ((atoms operands).1.1.mp isNil)
  · rename_i notNil notEmpty notNil' notEmpty'
    have none : (∀ o ∈ (Expr.cat simpleLeft simpleRight).operands, state.Inherits id o) →
        Tree.contractCat (state.arena.tree simpleLeft) (state.arena.tree simpleRight) = none := by
      intro operands
      obtain ⟨⟨nil_iff, empty_iff⟩, nil_iff', empty_iff'⟩ := atoms operands
      refine Tree.contractCat_eq_none_iff.mpr ⟨⟨?_, ?_⟩, ?_, ?_⟩
      · exact fun isNil => notNil (nil_iff.mp isNil)
      · exact fun isNil => notNil' (nil_iff'.mp isNil)
      · exact fun isEmpty => notEmpty (empty_iff.mp isEmpty)
      · exact fun isEmpty => notEmpty' (empty_iff'.mp isEmpty)
    simp only [ensures_bind, ensures_unchanged]
    split
    · rename_i bothUnchanged
      simp only [Bool.and_eq_true, beq_iff_eq] at bothUnchanged
      refine (ensures_pure _ _).mpr (course.finishes_keep found ?_ none)
      rw [Expr.map, bothUnchanged.1, bothUnchanged.2]
    · rename_i changed
      refine course.ensures_rebuilt found (fun same => changed ?_) ?_ none
      · obtain ⟨rfl, rfl⟩ := Expr.cat.inj same
        simp
      · simp [Expr.operands, inside, inside']

/-! ## Unions -/

omit course in
/-- The emptiness of a closed expression is seen as it is asked for. -/
theorem view_eq_nil_iff (closed : state.arena.Closed x) :
    state.arena.view x = .nil ↔ state.arena.get? x = some .nil := by
  rw [closed.view_eq, closed.get?]
  cases state.arena.get x <;> simp [Expr.map]

/-- A new union has no height yet. -/
theorem ensures_union (inside : l.number < state.arena.size)
    (inside' : r.number < state.arena.size) :
    Ensures (liftM (push (.alt l r)) : Eval Grammar ExprId) state fun value after =>
      Onwards limit base state after ∧ value.number < after.arena.size ∧
        after.arena.slot? value = some (.expr (.alt l r)) ∧ after.rewriting.Graded value := by
  have unknown : state.tables.heights.settled[(state.arena.push (.alt l r)).1]? = none := by
    cases found : state.tables.heights.settled[(state.arena.push (.alt l r)).1]? with
    | none => rfl
    | some h => exact absurd (course.normal.measures.inside found) (Nat.lt_irrefl _)
  have pushed := course.ensures_push (e := .alt l r) (by simp [Expr.operands, inside, inside'])
  rw [Eval.ensures_lift] at pushed ⊢
  refine ⟨pushed.1, pushed.2.1, pushed.2.2.1, fun h isHeight => ?_⟩
  cases unknown.symm.trans isHeight

variable (id left right) in
/-- Operands that are neither equal nor empty make a new union. -/
theorem ensures_joined (inside : l.number < state.arena.size)
    (inside' : r.number < state.arena.size)
    (changed : ¬ (state.arena.resolve left = l ∧ state.arena.resolve right = r)) :
    Ensures (liftM (push (.alt l r)) : Eval Grammar ExprId) state fun value after =>
      Onwards limit base state after ∧ value.number < after.arena.size ∧
        (state.Inherits id l → state.Inherits id r →
          state.tables.equalities.settled[Arena.unorderedPair l r]? = some false →
          state.arena.view r ≠ .nil → state.arena.view l ≠ .nil → after.Inherits id value ∧
            after.Joins id (state.arena.resolve left) (state.arena.resolve right) l r value) := by
  refine (course.ensures_union inside inside').mono ?_
  rintro value after ⟨onwards, isInside, isPushed, graded⟩
  refine ⟨onwards, isInside, fun inherits inherits' different known known' => ?_⟩
  have retains := onwards.retains
  have operands : ∀ o ∈ (Expr.alt l r).operands, after.Inherits id o := by
    intro o member
    rcases List.mem_pair.mp member with rfl | rfl
    · exact retains.inherits inherits
    · exact retains.inherits inherits'
  refine ⟨.of_expr onwards.course.side.wellFormed isPushed operands, ?_⟩
  refine .alt (retains.equalities _ _ different) ?_ ?_ ?_ (.inr graded) ?_
  · rwa [retains.view_eq inherits'.closed]
  · rwa [retains.view_eq inherits.closed]
  · exact onwards.course.view_pushed isPushed operands
  · exact fun same same' => absurd ⟨same.symm, same'.symm⟩ changed

theorem ensures_uniteOrdered (found : state.arena.slot? id = some (.expr (.alt left right)))
    (inside : l.number < state.arena.size) (inside' : r.number < state.arena.size) :
    Ensures (uniteOrdered id left right l r) state fun value after =>
      Onwards limit base state after ∧ value.number < after.arena.size ∧
        (state.arena.Closed id → state.Inherits id l → state.Inherits id r →
          after.Inherits id value ∧ after.Joins id (state.arena.resolve left)
            (state.arena.resolve right) l r value) := by
  unfold uniteOrdered
  refine (ensures_bind _ _ _).mpr ((course.ensures_equal inside inside').mono ?_)
  rintro isEqual after ⟨onwards, sameArena, decided⟩
  have course := onwards.course
  have retains := onwards.retains
  rw [← sameArena] at found inside inside' decided ⊢
  have decided : state.Inherits id l → state.Inherits id r →
      after.tables.equalities.settled[Arena.unorderedPair l r]? = some isEqual := by
    intro inherits inherits'
    rwa [(retains.inherits inherits).resolved, (retains.inherits inherits').resolved] at decided
  cases isEqual with
  | true =>
      refine (ensures_pure _ _).mpr ⟨onwards, inside, fun _ inherits inherits' => ?_⟩
      exact ⟨retains.inherits inherits, .same (decided inherits inherits')⟩
  | false =>
      simp only [Bool.false_eq_true, if_false, ensures_bind, ensures_shape]
      split
      · rename_i isNil
        refine (ensures_pure _ _).mpr ⟨onwards, inside, fun _ inherits inherits' => ?_⟩
        exact ⟨retains.inherits inherits, .altNil (decided inherits inherits')
          ((view_eq_nil_iff (retains.closed inherits'.closed)).mpr isNil)⟩
      rename_i known
      have known : state.Inherits id r → after.arena.view r ≠ .nil := fun inherits isNil =>
        known ((view_eq_nil_iff (retains.closed inherits.closed)).mp isNil)
      simp only [ensures_bind, ensures_shape]
      split
      · rename_i isNil
        refine (ensures_pure _ _).mpr ⟨onwards, inside', fun _ inherits inherits' => ?_⟩
        exact ⟨retains.inherits inherits', .nilAlt (decided inherits inherits') (known inherits')
          ((view_eq_nil_iff (retains.closed inherits.closed)).mpr isNil)⟩
      rename_i known'
      have known' : state.Inherits id l → after.arena.view l ≠ .nil := fun inherits isNil =>
        known' ((view_eq_nil_iff (retains.closed inherits.closed)).mp isNil)
      simp only [ensures_bind, ensures_unchanged]
      split
      · rename_i bothUnchanged
        simp only [Bool.and_eq_true, beq_iff_eq] at bothUnchanged
        refine (ensures_pure _ _).mpr ⟨onwards, Arena.lt_size_of_slot? found,
          fun closed inherits inherits' => ?_⟩
        refine ⟨.refl closed (Arena.resolve_of_expr found), ?_⟩
        refine .alt (decided inherits inherits') (known inherits') (known' inherits) ?_ (.inl rfl)
          fun _ _ => rfl
        rw [closed.view_of_expr found, Expr.map, bothUnchanged.1, bothUnchanged.2]
      · rename_i changed
        refine (course.ensures_joined id left right inside inside' (by simpa using changed)).mono ?_
        rintro value last ⟨onwards', isInside, joined⟩
        refine ⟨onwards.trans onwards', isInside, fun _ inherits inherits' => ?_⟩
        exact joined (retains.inherits inherits) (retains.inherits inherits')
          (decided inherits inherits') (known inherits') (known' inherits)

/-- The operands are put in order, by their heights. -/
theorem ensures_unite (found : state.arena.slot? id = some (.expr (.alt left right)))
    (inside : l.number < state.arena.size) (inside' : r.number < state.arena.size) :
    Ensures (unite id left right l r) state fun value after =>
      Onwards limit base state after ∧ value.number < after.arena.size ∧
        (state.arena.Closed id → state.Inherits id l → state.Inherits id r →
          after.Inherits id value ∧ ∃ l' r', after.rewriting.Orders l r l' r' ∧
            after.Joins id (state.arena.resolve left) (state.arena.resolve right) l' r' value) := by
  unfold unite
  refine (ensures_bind _ _ _).mpr ((course.ensures_height inside).mono ?_)
  rintro leftHeight between ⟨onwards, sameArena, isHeight⟩
  rw [← sameArena] at found inside inside'
  refine (ensures_bind _ _ _).mpr ((onwards.course.ensures_height inside').mono ?_)
  rintro rightHeight last ⟨onwards', sameArena', isHeight'⟩
  rw [← sameArena'] at found inside inside'
  have both := onwards.trans onwards'
  have heights : state.Inherits id l → state.Inherits id r →
      last.rewriting.height l = some leftHeight ∧ last.rewriting.height r = some rightHeight := by
    intro inherits inherits'
    rw [inherits.resolved] at isHeight
    rw [sameArena, inherits'.resolved] at isHeight'
    exact ⟨onwards'.retains.heights _ _ isHeight, isHeight'⟩
  have sameArena := sameArena'.trans sameArena
  by_cases higher : leftHeight > rightHeight
  · simp only [higher, if_true]
    refine (both.course.ensures_uniteOrdered found inside' inside).mono ?_
    rintro value after ⟨onwards, isInside, joins⟩
    rw [sameArena] at joins
    refine ⟨both.trans onwards, isInside, fun closed inherits inherits' => ?_⟩
    obtain ⟨isHeight, isHeight'⟩ := heights inherits inherits'
    obtain ⟨inheritsValue, joins⟩ :=
      joins closed (both.retains.inherits inherits') (both.retains.inherits inherits)
    refine ⟨inheritsValue, r, l, ?_, joins⟩
    exact onwards.retains.orders (.swapped isHeight isHeight' higher)
  · simp only [higher, if_false]
    refine (both.course.ensures_uniteOrdered found inside inside').mono ?_
    rintro value after ⟨onwards, isInside, joins⟩
    rw [sameArena] at joins
    refine ⟨both.trans onwards, isInside, fun closed inherits inherits' => ?_⟩
    obtain ⟨isHeight, isHeight'⟩ := heights inherits inherits'
    obtain ⟨inheritsValue, joins⟩ :=
      joins closed (both.retains.inherits inherits) (both.retains.inherits inherits')
    refine ⟨inheritsValue, l, r, ?_, joins⟩
    exact onwards.retains.orders (.kept isHeight isHeight' (Nat.le_of_not_lt higher))

omit course in
/-- Turning a union around and putting it in order keeps its parts. -/
theorem arranges_of_turns (turns : state.rewriting.Turns simpleLeft simpleRight l r)
    (orders : state.rewriting.Orders l r l' r') (resolved : state.arena.resolve l = l)
    (resolved' : state.arena.resolve r = r)
    (clean : ∀ {limit}, state.arena.Patched limit l ∨ state.arena.Patched limit r →
      state.arena.Patched limit simpleLeft ∨ state.arena.Patched limit simpleRight) :
    state.Arranges simpleLeft simpleRight l' r' := by
  refine ⟨⟨l, r, turns, orders⟩, ?_, fun patched => clean ?_⟩
  · cases orders with
    | kept _ _ _ => exact ⟨resolved, resolved'⟩
    | swapped _ _ _ => exact ⟨resolved', resolved⟩
  · cases orders with
    | kept _ _ _ => exact patched
    | swapped _ _ _ => exact patched.symm

omit course in
/-- A union with a union on the left, and the new union that takes over its right part. -/
theorem turns_of_slots {inner rest tail : ExprId} (wellFormed : state.arena.WellFormed)
    (found : state.arena.slot? simpleLeft = some (.expr (.alt inner rest)))
    (isTail : state.arena.slot? tail = some (.expr (.alt rest simpleRight)))
    (closed : state.arena.Closed simpleLeft) (closed' : state.arena.Closed simpleRight)
    (resolved : state.arena.resolve simpleRight = simpleRight)
    (graded : state.rewriting.Graded tail) :
    state.rewriting.Turns simpleLeft simpleRight (state.arena.resolve inner) tail ∧
      state.Inherits simpleLeft (state.arena.resolve inner) ∧ state.arena.Closed tail ∧
      ∀ {limit}, state.arena.Patched limit tail →
        state.arena.Patched limit simpleLeft ∨ state.arena.Patched limit simpleRight := by
  have isAlt := closed.view_of_expr found
  have isRest : state.arena.Closed rest := by
    refine closed.of_mem ?_
    rw [Arena.get_of_stands (Arena.stands_of_expr found)]
    simp [Expr.operands]
  have isClosed : state.arena.Closed tail := by
    refine wellFormed.closed_of_expr isTail fun o member => ?_
    rcases List.mem_pair.mp member with rfl | rfl
    · exact isRest
    · exact closed'
  have isTailView := isClosed.view_of_expr isTail
  rw [Expr.map, resolved] at isTailView
  refine ⟨.turned isAlt isTailView graded, ?_, isClosed, fun patched => ?_⟩
  · refine .of_operand closed ?_
    rw [isAlt]
    simp [Expr.map, Expr.operands]
  · obtain ⟨o, member, patched⟩ := patched.exists_operand isTail
    rcases List.mem_pair.mp member with rfl | rfl
    · exact .inl (patched.of_points (.inr ⟨_, found, by simp [Expr.operands]⟩))
    · exact .inr patched

/-- Nothing is turned around if there is no union on the left. -/
theorem ensures_flat (found : state.arena.slot? id = some (.expr (.alt left right)))
    (inside : simpleLeft.number < state.arena.size)
    (inside' : simpleRight.number < state.arena.size)
    (other : ∀ inner rest, state.arena.get? simpleLeft ≠ some (.alt inner rest)) :
    Ensures (unite id left right simpleLeft simpleRight) state
      (Unites limit base state id left right simpleLeft simpleRight) := by
  refine (course.ensures_unite found inside inside').mono ?_
  rintro value after ⟨onwards, isInside, united⟩
  refine ⟨onwards, isInside, fun closed inherits inherits' => ?_⟩
  have retains := onwards.retains
  obtain ⟨inheritsValue, l, r, orders, joins⟩ := united closed inherits inherits'
  have single : state.rewriting.Single simpleLeft := by
    intro inner rest isAlt
    have isAlt := inherits.closed.view_eq.symm.trans isAlt
    have known := inherits.closed.get?
    cases isGet : state.arena.get simpleLeft with
    | alt inner rest =>
        rw [isGet] at known
        exact other _ _ known
    | _ =>
        rw [isGet] at isAlt
        cases isAlt
  refine ⟨inheritsValue, l, r, ?_, joins⟩
  exact arranges_of_turns (retains.turns (.flat single) inherits.closed) orders
    (retains.inherits inherits).resolved (retains.inherits inherits').resolved
    fun patched => patched

/-- The right part of a union on the left goes to the right, in a new union. -/
theorem ensures_turned {inner rest : ExprId}
    (found : state.arena.slot? id = some (.expr (.alt left right)))
    (inside : simpleLeft.number < state.arena.size)
    (inside' : simpleRight.number < state.arena.size)
    (known : state.arena.get? simpleLeft = some (.alt inner rest)) :
    Ensures ((liftM (push (.alt rest simpleRight)) : Eval Grammar ExprId) >>=
        unite id left right (state.arena.resolve inner)) state
      (Unites limit base state id left right simpleLeft simpleRight) := by
  have wellFormed := course.side.wellFormed
  have left_lt := wellFormed.operand_lt found left (by simp [Expr.operands])
  have right_lt := wellFormed.operand_lt found right (by simp [Expr.operands])
  have stands := (wellFormed.get?_eq_some inside).mp known
  have operand_lt := wellFormed.operand_lt stands
  have inner_lt := operand_lt inner (by simp [Expr.operands])
  have rest_lt := operand_lt rest (by simp [Expr.operands])
  rw [ensures_bind]
  refine (course.ensures_union rest_lt inside').mono ?_
  rintro tail between ⟨onwards, tail_lt, isTail, graded⟩
  have retains := onwards.retains
  refine (onwards.course.ensures_unite (retains.grows.expr found)
    (retains.grows.lt_size (wellFormed.resolve_lt inner_lt)) tail_lt).mono ?_
  rintro value after ⟨onwards', isInside, united⟩
  refine ⟨onwards.trans onwards', isInside, fun closed inherits inherits' => ?_⟩
  have retains' := onwards'.retains
  have isAlt : state.arena.slot? simpleLeft = some (.expr (.alt inner rest)) := by
    rwa [Arena.Stands, inherits.resolved] at stands
  have isInner : between.arena.resolve inner = state.arena.resolve inner :=
    onwards.extending.resolve wellFormed inner_lt
  have isInner' : after.arena.resolve inner = state.arena.resolve inner :=
    (onwards.extending.trans onwards'.extending).resolve wellFormed inner_lt
  have isLeft := retains.inherits inherits
  have isRight := retains.inherits inherits'
  have isTail' := retains'.grows.expr isTail
  -- The parts are seen once before they are put in order, and once more in the end.
  obtain ⟨_, inheritsInner, isClosed, clean⟩ := turns_of_slots onwards.course.side.wellFormed
    (retains.grows.expr isAlt) isTail isLeft.closed isRight.closed isRight.resolved graded
  have inheritsTail : between.Inherits id tail :=
    ⟨isClosed, Arena.resolve_of_expr isTail, fun patched =>
      (clean patched).elim isLeft.clean isRight.clean⟩
  rw [isInner] at inheritsInner
  obtain ⟨inheritsValue, l, r, orders, joins⟩ := united (retains.closed closed)
    (isLeft.trans inheritsInner) inheritsTail
  rw [onwards.extending.resolve wellFormed left_lt,
    onwards.extending.resolve wellFormed right_lt] at joins
  obtain ⟨turns, inheritsInner, isClosed, clean⟩ := turns_of_slots
    onwards'.course.side.wellFormed (retains'.grows.expr (retains.grows.expr isAlt)) isTail'
    (retains'.inherits isLeft).closed (retains'.inherits isRight).closed
    (retains'.inherits isRight).resolved (retains'.graded isClosed graded)
  rw [isInner'] at turns inheritsInner
  refine ⟨inheritsValue, l, r, ?_, joins⟩
  refine arranges_of_turns turns orders inheritsInner.resolved (Arena.resolve_of_expr isTail') ?_
  rintro limit (patched | patched)
  · exact .inl (inheritsInner.clean patched)
  · exact clean patched

theorem ensures_simplifyAlt (found : state.arena.slot? id = some (.expr (.alt left right)))
    (inside : simpleLeft.number < state.arena.size)
    (inside' : simpleRight.number < state.arena.size) :
    Ensures (simplifyAlt id left right simpleLeft simpleRight) state
      (Unites limit base state id left right simpleLeft simpleRight) := by
  rw [simplifyAlt_eq]
  simp only [ensures_bind, ensures_shape]
  split
  · rename_i inner rest known
    simp only [ensures_bind, ensures_get, ensures_pure]
    exact (ensures_bind _ _ _).mp (course.ensures_turned found inside inside' known)
  · rename_i other
    rw [ensures_bind, ensures_pure]
    exact course.ensures_flat found inside inside' other

end Course

end Residual.Grammar
