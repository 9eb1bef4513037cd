import Residual.Proofs.Grammar.NormalForm.Rebuilding

/-!
# What a simplification knows of closed and orderly expressions

The operands of an expression are simplified while it is being evaluated itself.  A closed
expression is not below itself, so that no operand of it is answered with an unbound link.  An
operand of an orderly expression may be: then the link stands for the copy that is being made.
-/

set_option autoImplicit false

namespace Residual.Grammar

open Memo Relation

variable {base state between after : Grammar} {limit fuel : Nat}
  {id key operand value left right l r : ExprId} {e e' : Expr ExprId}

/-- The answer of a step. -/
structure Simplifies (limit : Nat) (base state : Grammar) (id value : ExprId) (after : Grammar) :
    Prop where
  onwards : Onwards limit base state after
  inside : value.number < after.arena.size
  entry : base.arena.Closed id → after.Entry id value

/-- The answer of a nested call. -/
structure Responds (limit : Nat) (base state : Grammar) (key value : ExprId) (after : Grammar) :
    Prop where
  onwards : Onwards limit base state after
  inside : value.number < after.arena.size
  tells : base.arena.Closed key → after.Tells key value
  reflects : after.Reflects key value
  spares : base.arena.Orderly key → state.SparesCycles after

/-- The keys that are being evaluated are above the key that is asked for. -/
def Above (base state : Grammar) (key : ExprId) : Prop :=
  ∀ {other link}, state.Running other link → TransGen base.arena.Child other key

/-! ## One step -/

theorem Reduced.entry (reduced : after.Reduced id e value)
    (related : (after.arena.view id).Related after.Tells e) (single : after.rewriting.Single id) :
    after.Entry id value := by
  refine ⟨reduced.toInherits, ?_⟩
  rcases reduced.made with contracts | ⟨none, isView, unchanged⟩
  · exact .contracts related contracts
  · exact .keeps single related none isView unchanged

/-- What a closed expression of the base is seen as later. -/
theorem Course.view_base (course : Course limit base state)
    (found : base.arena.slot? id = some (.expr e)) (closed : base.arena.Closed id) :
    state.arena.view id = e.map base.arena.resolve := by
  rw [closed.view_grows course.side.fromBase.grows course.side.wellFormed,
    closed.view_of_expr found]

theorem Course.get_eq (course : Course limit base state)
    (found : base.arena.slot? id = some (.expr e)) : state.get id = e :=
  Arena.get_of_stands (Arena.stands_of_expr (course.side.fromBase.grows.expr found))

/-- The simplified operands of a closed expression are closed too. -/
theorem Course.inherits_of_related (course : Course limit base state)
    (found : base.arena.slot? id = some (.expr e)) (closed : base.arena.Closed id)
    (related : e.Related (fun o s => state.Tells (base.arena.resolve o) s) e') :
    ∀ s ∈ e'.operands, state.Inherits id s := by
  intro s member
  obtain ⟨o, isOperand, tells⟩ := Arena.exists_related_left related.operands s member
  have isClosed := (course.closed_iff (Arena.lt_size_of_slot? found)).mpr closed
  have inherits : state.Inherits id (base.arena.resolve o) := by
    refine .of_operand isClosed ?_
    rw [course.view_base found closed, Expr.operands_map]
    exact List.mem_map_of_mem isOperand
  exact inherits.trans (course.normal.entry tells.told inherits.closed).toInherits

/-- The answer for an operator other than a union. -/
theorem Finishes.simplifies (finishes : Finishes limit base between id e' value after)
    (found : base.arena.slot? id = some (.expr e)) (other : ∀ left right, e ≠ .alt left right)
    (course : Course limit base between) (onwards : Onwards limit base state between)
    (related : base.arena.Closed id →
      e.Related (fun o s => between.Tells (base.arena.resolve o) s) e') :
    Simplifies limit base state id value after := by
  refine ⟨onwards.trans finishes.onwards, finishes.inside, fun closed => ?_⟩
  have course' := finishes.onwards.course
  have retains := finishes.onwards.retains
  have isView := course'.view_base found closed
  have reduced := finishes.reduced ((course.closed_iff (Arena.lt_size_of_slot? found)).mpr closed)
    (course.inherits_of_related found closed (related closed))
  refine reduced.entry ?_ fun left right isAlt => ?_
  · rw [isView, Expr.Related.map_left]
    exact (related closed).imp fun _ _ => retains.tells
  · have isAlt := isView.symm.trans isAlt
    cases e with
    | alt _ _ => exact other _ _ rfl
    | _ => cases isAlt

section Step

variable {recur : ExprId → Eval Grammar ExprId}
  (asked : ∀ {state key}, Course limit base state → key.number < base.arena.size →
    base.arena.resolve key = key → Above base state key →
    Ensures (recur key) state (Responds limit base state key))
  (course : Course limit base state)
  (within : ∀ {key link}, state.Running key link → ReflTransGen base.arena.Child key id)

include asked course within

theorem ensures_operand (found : base.arena.slot? id = some (.expr e))
    (member : operand ∈ e.operands) : Ensures (askOperand recur operand) state
      (Responds limit base state (base.arena.resolve operand)) := by
  have wellFormed := course.wellFormed
  have inside := wellFormed.operand_lt found operand member
  unfold askOperand
  rw [ensures_bind, ensures_get]
  have same : state.resolve operand = base.arena.resolve operand :=
    course.side.fromBase.resolve wellFormed inside
  rw [same]
  refine asked course (wellFormed.resolve_lt inside) (wellFormed.resolve_resolve operand)
    fun running => TransGen.tail' (within running) ?_
  rw [Arena.Child, Arena.mem_operands_iff, Arena.get_of_stands (Arena.stands_of_expr found)]
  exact ⟨operand, member, rfl⟩

/-- An operator with one operand. -/
theorem ensures_unary {e : ExprId → Expr ExprId} {next : ExprId → Eval Grammar ExprId}
    (found : base.arena.slot? id = some (.expr (e operand)))
    (members : (e operand).operands = [operand])
    (related : ∀ {SimplifiesTo : ExprId → ExprId → Prop} {simple}, SimplifiesTo operand simple →
      (e operand).Related SimplifiesTo (e simple))
    (finishes : ∀ {between simple}, Course limit base between →
      between.arena.slot? id = some (.expr (e operand)) → simple.number < between.arena.size →
      Ensures (next simple) between (Finishes limit base between id (e simple))) :
    Ensures (askOperand recur operand >>= next) state (Simplifies limit base state id) := by
  have member : operand ∈ (e operand).operands := by simp [members]
  rw [ensures_bind]
  refine (ensures_operand asked course within found member).mono ?_
  rintro simple between ⟨onwards, inside, tells⟩
  have course := onwards.course
  refine (finishes course (course.side.fromBase.grows.expr found) inside).mono ?_
  intro value after finishes
  refine finishes.simplifies found ?_ course onwards fun closed => related (tells ?_)
  · intro left right isAlt
    simp [isAlt, Expr.operands] at members
  · refine (closed.of_mem ?_).resolve
    rwa [Arena.get_of_stands (Arena.stands_of_expr found)]

/-- Both operands of an operator are simplified one after the other. -/
theorem ensures_operands {next : ExprId → ExprId → Eval Grammar ExprId}
    {post : ExprId → Grammar → Prop} (found : base.arena.slot? id = some (.expr e))
    (members : e.operands = [left, right])
    (finishes : ∀ {between simple simple'}, Onwards limit base state between →
      simple.number < between.arena.size → simple'.number < between.arena.size →
      (base.arena.Closed id → between.Tells (base.arena.resolve left) simple ∧
        between.Tells (base.arena.resolve right) simple') →
      Ensures (next simple simple') between post) :
    Ensures (do
      let simple ← askOperand recur left
      let simple' ← askOperand recur right
      next simple simple') state post := by
  have closed_operand : ∀ o ∈ e.operands, base.arena.Closed id →
      base.arena.Closed (base.arena.resolve o) := fun o member closed =>
    (closed.of_mem (by rwa [Arena.get_of_stands (Arena.stands_of_expr found)])).resolve
  have member : left ∈ e.operands := by simp [members]
  have member' : right ∈ e.operands := by simp [members]
  rw [ensures_bind]
  refine (ensures_operand asked course within found member).mono ?_
  rintro simple between ⟨onwards, inside, tells⟩
  rw [ensures_bind]
  refine (ensures_operand asked onwards.course
    (fun running => within (onwards.running_iff.mp running)) found member').mono ?_
  rintro simple' between' ⟨onwards', inside', tells'⟩
  refine finishes (onwards.trans onwards') (onwards'.retains.grows.lt_size inside) inside'
    fun closed => ⟨onwards'.retains.tells (tells (closed_operand left member closed)),
      tells' (closed_operand right member' closed)⟩

/-- The operands of a union are put together. -/
theorem ensures_alt (found : base.arena.slot? id = some (.expr (.alt left right))) :
    Ensures (simplifyStep recur id) state (Simplifies limit base state id) := by
  unfold simplifyStep
  rw [ensures_bind, ensures_get, course.get_eq found]
  refine ensures_operands asked course within found rfl ?_
  intro between simpleLeft simpleRight onwards inside inside' tells
  have course := onwards.course
  have fromBase := course.side.fromBase
  have operand_lt := course.wellFormed.operand_lt found
  refine (course.ensures_simplifyAlt (fromBase.grows.expr found) inside inside').mono ?_
  rintro value after ⟨onwards', isInside, united⟩
  refine ⟨onwards.trans onwards', isInside, fun closed => ?_⟩
  have retains := onwards'.retains
  obtain ⟨tells, tells'⟩ := tells closed
  have inherits : ∀ s ∈ (Expr.alt simpleLeft simpleRight).operands, between.Inherits id s :=
    course.inherits_of_related found closed (.alt tells tells')
  obtain ⟨inheritsValue, l, r, arranges, joins⟩ :=
    united ((course.closed_iff (Arena.lt_size_of_slot? found)).mpr closed)
      (inherits _ (by simp [Expr.operands])) (inherits _ (by simp [Expr.operands]))
  rw [fromBase.resolve course.wellFormed (operand_lt left (by simp [Expr.operands])),
    fromBase.resolve course.wellFormed (operand_lt right (by simp [Expr.operands]))] at joins
  exact ⟨inheritsValue, .unites (onwards'.course.view_base found closed) (retains.tells tells)
    (retains.tells tells') arranges joins⟩

theorem ensures_cat (found : base.arena.slot? id = some (.expr (.cat left right))) :
    Ensures (simplifyStep recur id) state (Simplifies limit base state id) := by
  unfold simplifyStep
  rw [ensures_bind, ensures_get, course.get_eq found]
  refine ensures_operands asked course within found rfl ?_
  intro between simpleFirst simpleSecond onwards inside inside' tells
  have course := onwards.course
  refine (course.ensures_simplifyCat (course.side.fromBase.grows.expr found) inside inside').mono ?_
  intro value after finishes
  exact finishes.simplifies found (by simp) course onwards fun closed =>
    .cat (tells closed).1 (tells closed).2

theorem ensures_not (found : base.arena.slot? id = some (.expr (.not operand))) :
    Ensures (simplifyStep recur id) state (Simplifies limit base state id) := by
  unfold simplifyStep
  rw [ensures_bind, ensures_get, course.get_eq found]
  refine ensures_unary asked course within (e := .not) found rfl .not
    fun {between simple} course found inside => ?_
  have wellFormed := course.side.wellFormed
  simp only [ensures_bind, ensures_shape]
  split
  · rename_i inner known
    have stands := (wellFormed.get?_eq_some inside).mp known
    have inner_lt := wellFormed.operand_lt stands inner (by simp [Expr.operands])
    simp only [ensures_bind, ensures_get, ensures_pure]
    refine course.finishes_contract (wellFormed.resolve_lt inner_lt) ?_ ?_
    · exact fun _ operands => (operands simple (by simp [Expr.operands])).resolve known
        (by simp [Expr.operands])
    · intro operands
      have closed := (operands simple (by simp [Expr.operands])).closed
      have isInner : between.arena.Closed inner := by
        refine closed.of_mem ?_
        rw [Arena.get_of_stands stands]
        simp [Expr.operands]
      change Tree.contract (.not (between.arena.tree simple)) = _
      rw [closed.tree_of_get? known]
      exact congrArg some isInner.tree_resolve.symm
  · rename_i other
    refine course.ensures_rebuild found rfl rfl rfl inside fun {e} known isTree => ?_
    change Tree.contract (.not (between.arena.tree simple)) = _
    rw [isTree]
    cases e with
    | not inner => exact absurd known (other inner)
    | _ => rfl

theorem ensures_opt (found : base.arena.slot? id = some (.expr (.opt operand))) :
    Ensures (simplifyStep recur id) state (Simplifies limit base state id) := by
  unfold simplifyStep
  rw [ensures_bind, ensures_get, course.get_eq found]
  refine ensures_unary asked course within (e := .opt) found rfl .opt
    fun {between simple} course found inside => ?_
  have member : simple ∈ (Expr.opt simple).operands := List.mem_singleton_self simple
  simp only [ensures_bind, ensures_shape]
  split
  · rename_i known
    refine (ensures_pure _ _).mpr (course.finishes_empty member known fun isTree => ?_)
    simp [Expr.map, isTree, Tree.contract]
  · rename_i known
    refine (ensures_pure _ _).mpr (course.finishes_empty member known fun isTree => ?_)
    simp [Expr.map, isTree, Tree.contract]
  · rename_i notNil notEmpty
    refine course.ensures_rebuild found rfl rfl rfl inside fun {e} known isTree => ?_
    change Tree.contract (.opt (between.arena.tree simple)) = _
    rw [isTree]
    cases e with
    | nil => exact absurd known notNil
    | empty => exact absurd known notEmpty
    | _ => rfl

theorem ensures_plus (found : base.arena.slot? id = some (.expr (.plus operand))) :
    Ensures (simplifyStep recur id) state (Simplifies limit base state id) := by
  unfold simplifyStep
  rw [ensures_bind, ensures_get, course.get_eq found]
  refine ensures_unary asked course within (e := .plus) found rfl .plus
    fun {between simple} course found inside => ?_
  have member : simple ∈ (Expr.plus simple).operands := List.mem_singleton_self simple
  simp only [ensures_bind, ensures_shape]
  split
  · rename_i known
    refine (ensures_pure _ _).mpr (course.finishes_operand inside member known fun isTree => ?_)
    simp [Expr.map, isTree, Tree.contract]
  · rename_i known
    refine (ensures_pure _ _).mpr (course.finishes_operand inside member known fun isTree => ?_)
    simp [Expr.map, isTree, Tree.contract]
  · rename_i notNil notEmpty
    refine course.ensures_rebuild found rfl rfl rfl inside fun {e} known isTree => ?_
    change Tree.contract (.plus (between.arena.tree simple)) = _
    rw [isTree]
    cases e with
    | nil => exact absurd known notNil
    | empty => exact absurd known notEmpty
    | _ => rfl

theorem ensures_star (found : base.arena.slot? id = some (.expr (.star operand))) :
    Ensures (simplifyStep recur id) state (Simplifies limit base state id) := by
  unfold simplifyStep
  rw [ensures_bind, ensures_get, course.get_eq found]
  refine ensures_unary asked course within (e := .star) found rfl .star
    fun {between simple} course found inside => ?_
  have member : simple ∈ (Expr.star simple).operands := List.mem_singleton_self simple
  simp only [ensures_bind, ensures_shape]
  split
  · rename_i known
    refine (ensures_pure _ _).mpr (course.finishes_empty member known fun isTree => ?_)
    simp [Expr.map, isTree, Tree.contract]
  · rename_i known
    refine (ensures_pure _ _).mpr (course.finishes_empty member known fun isTree => ?_)
    simp [Expr.map, isTree, Tree.contract]
  · rename_i known
    refine (ensures_pure _ _).mpr (course.finishes_operand inside member known fun isTree => ?_)
    simp [Expr.map, isTree, Tree.contract]
  · rename_i notNil notEmpty other
    refine course.ensures_rebuild found rfl rfl rfl inside fun {e} known isTree => ?_
    change Tree.contract (.star (between.arena.tree simple)) = _
    rw [isTree]
    cases e with
    | nil => exact absurd known notNil
    | empty => exact absurd known notEmpty
    | star inner => exact absurd known (other inner)
    | _ => rfl

theorem ensures_rep {count : Count}
    (found : base.arena.slot? id = some (.expr (.rep operand count))) :
    Ensures (simplifyStep recur id) state (Simplifies limit base state id) := by
  unfold simplifyStep
  rw [ensures_bind, ensures_get, course.get_eq found]
  rcases count with (_ | _ | times) | _
  case finite.zero =>
    refine (ensures_pure _ _).mpr ⟨course.refl, course.side.wellFormed.empty_lt_size, ?_⟩
    exact fun closed =>
      ⟨.empty course.side.wellFormed, .never (course.view_base found closed)⟩
  case finite.succ.zero =>
    change Ensures (askOperand recur operand) state _
    rw [← bind_pure (askOperand recur operand)]
    refine ensures_unary asked course within (e := fun x => .rep x (.finite 1)) found rfl (.rep _)
      fun {between simple} course found inside => ?_
    refine (ensures_pure _ _).mpr (course.finishes_contract inside
      (fun _ operands => operands simple (by simp [Expr.operands])) fun _ => rfl)
  case infinite =>
    refine ensures_unary asked course within (e := fun x => .rep x .infinite) found rfl (.rep _)
      fun {between simple} course found inside => ?_
    exact course.ensures_contracted (.rep simple .infinite) (.star simple) rfl
      (by simpa [Expr.operands] using inside) rfl
  case finite.succ.succ =>
    refine ensures_unary asked course within (e := fun x => .rep x (.finite (times + 2))) found rfl
      (.rep _) fun {between simple} course found inside => ?_
    exact course.ensures_rebuild found rfl rfl rfl inside fun _ _ => rfl

omit asked within in
/-- An operator without operands stays as it is, or a rule leads to another one. -/
theorem ensures_leaf (found : base.arena.slot? id = some (.expr e)) (isLeaf : e.operands = [])
    {computation : Eval Grammar ExprId}
    (finishes : Ensures computation state (Finishes limit base state id e)) :
    Ensures computation state (Simplifies limit base state id) := by
  refine finishes.mono fun value after finishes => ?_
  refine finishes.simplifies found ?_ course course.refl fun _ => .leaf isLeaf
  rintro left right rfl
  cases isLeaf

/-- A step keeps all that is known of closed expressions, and answers for its own. -/
theorem ensures_simplifyStep (inside : id.number < base.arena.size)
    (resolved : base.arena.resolve id = id) :
    Ensures (simplifyStep recur id) state (Simplifies limit base state id) := by
  have fromBase := course.side.fromBase
  rcases course.wellFormed.stands_or_unbound inside with ⟨e, stands⟩ | unbound
  · have found : base.arena.slot? id = some (.expr e) := by
      rwa [Arena.Stands, resolved] at stands
    have found' := fromBase.grows.expr found
    cases e with
    | alt left right => exact ensures_alt asked course within found
    | cat first second => exact ensures_cat asked course within found
    | not lang => exact ensures_not asked course within found
    | opt lang => exact ensures_opt asked course within found
    | plus lang => exact ensures_plus asked course within found
    | star lang => exact ensures_star asked course within found
    | rep lang count => exact ensures_rep asked course within found
    | range low high =>
        unfold simplifyStep
        rw [ensures_bind, ensures_get, course.get_eq found]
        refine ensures_leaf course found rfl ?_
        dsimp only
        split
        · rename_i single
          exact course.ensures_contracted (.range low high) (.char low) rfl
            (List.forall_mem_nil _) (if_pos single)
        · rename_i distinct
          exact (ensures_pure _ _).mpr (course.finishes_keep found' rfl fun _ => if_neg distinct)
    | any | char _ | empty | nil | token _ =>
        unfold simplifyStep
        rw [ensures_bind, ensures_get, course.get_eq found]
        refine ensures_leaf course found rfl ((ensures_pure _ _).mpr ?_)
        exact course.finishes_keep found' rfl fun _ => rfl
  · have isNil : state.get id = .nil :=
      (fromBase.get course.wellFormed inside).trans (Arena.get_eq_nil_of_unbound unbound)
    unfold simplifyStep
    rw [ensures_bind, ensures_get, isNil]
    refine (ensures_pure _ _).mpr ⟨course.refl, fromBase.grows.lt_size inside, fun closed => ?_⟩
    cases unbound.symm.trans closed.stands

end Step

/-! ## One step of an orderly expression -/

/-- What goes on while links are bound elsewhere. -/
theorem Onwards.carries (onwards : Onwards limit base state after)
    (wellFormed : state.arena.WellFormed) : state.Carries after :=
  onwards.retains.carries wellFormed fun running => .inl (onwards.running_iff.mpr running)

/-- The operands of an expression were simplified. -/
structure Asked (limit : Nat) (base state : Grammar) (id : ExprId) (e simple : Expr ExprId)
    (after : Grammar) : Prop where
  onwards : Onwards limit base state after
  inside : ∀ s ∈ simple.operands, s.number < after.arena.size
  related : e.Related (fun o s => after.Reflects (base.arena.resolve o) s ∧
    (base.arena.Closed (base.arena.resolve o) → after.Tells (base.arena.resolve o) s)) simple
  spares : base.arena.Orderly id → state.SparesCycles after

section Orderly

variable {recur : ExprId → Eval Grammar ExprId}
  (asked : ∀ {state key}, Course limit base state → key.number < base.arena.size →
    base.arena.resolve key = key → Above base state key →
    Ensures (recur key) state (Responds limit base state key))
  (course : Course limit base state)
  (within : ∀ {key link}, state.Running key link → ReflTransGen base.arena.Child key id)
  (found : base.arena.slot? id = some (.expr e))

include asked course within found

theorem ensures_one {make : ExprId → Expr ExprId} (isOperand : e.operands = [operand])
    (operands : ∀ o, (make o).operands = [o])
    (related : ∀ {R : ExprId → ExprId → Prop} {s}, R operand s → e.Related R (make s)) :
    Ensures (do return make (← askOperand recur operand)) state (Asked limit base state id e) := by
  have member : operand ∈ e.operands := by simp [isOperand]
  refine (ensures_bind _ _ _).mpr ((ensures_operand asked course within found member).mono ?_)
  rintro simple after ⟨onwards, inside, tells, reflects, spares⟩
  refine (ensures_pure _ _).mpr ⟨onwards, ?_, related ⟨reflects, tells⟩, fun orderly => ?_⟩
  · simp [operands, inside]
  · refine spares (orderly.of_reaches course.wellFormed ?_)
    exact course.wellFormed.reaches_resolve_operand found member

theorem ensures_two {make : ExprId → ExprId → Expr ExprId} (isOperands : e.operands = [left, right])
    (operands : ∀ l r, (make l r).operands = [l, r])
    (related : ∀ {R : ExprId → ExprId → Prop} {l r}, R left l → R right r → e.Related R (make l r)) :
    Ensures (do return make (← askOperand recur left) (← askOperand recur right)) state
      (Asked limit base state id e) := by
  have member : left ∈ e.operands := by simp [isOperands]
  have member' : right ∈ e.operands := by simp [isOperands]
  have orderly_operand : ∀ {o}, o ∈ e.operands → base.arena.Orderly id →
      base.arena.Orderly (base.arena.resolve o) := fun member orderly =>
    orderly.of_reaches course.wellFormed (course.wellFormed.reaches_resolve_operand found member)
  refine (ensures_bind _ _ _).mpr ((ensures_operand asked course within found member).mono ?_)
  rintro l between ⟨onwards, inside, tells, reflects, spares⟩
  refine (ensures_bind _ _ _).mpr ((ensures_operand asked onwards.course
    (fun running => within (onwards.running_iff.mp running)) found member').mono ?_)
  rintro r after ⟨onwards', inside', tells', reflects', spares'⟩
  have retains := onwards'.retains
  refine (ensures_pure _ _).mpr ⟨onwards.trans onwards', ?_, related ⟨?_, ?_⟩ ⟨reflects', tells'⟩,
    fun orderly => ?_⟩
  · simp [operands, inside', retains.grows.lt_size inside]
  · exact (onwards'.carries onwards.course.side.wellFormed).reflects reflects
  · exact fun closed => retains.tells (tells closed)
  · exact (spares (orderly_operand member orderly)).trans (spares' (orderly_operand member' orderly))
      retains.grows retains.wellFormed

theorem ensures_asked : Ensures (e.mapM (askOperand recur)) state
    (Asked limit base state id e) := by
  cases e with
  | alt left right => exact ensures_two asked course within found rfl (fun _ _ => rfl) .alt
  | cat first second => exact ensures_two asked course within found rfl (fun _ _ => rfl) .cat
  | not lang => exact ensures_one asked course within found rfl (fun _ => rfl) .not
  | opt lang => exact ensures_one asked course within found rfl (fun _ => rfl) .opt
  | plus lang => exact ensures_one asked course within found rfl (fun _ => rfl) .plus
  | star lang => exact ensures_one asked course within found rfl (fun _ => rfl) .star
  | rep lang count =>
      have operands : ∀ o : ExprId, (Expr.rep o count).operands = [o] := fun _ => rfl
      exact ensures_one asked course within found rfl operands (.rep count)
  | _ =>
      exact (ensures_pure _ _).mpr
        ⟨course.refl, by simp [Expr.operands], .leaf rfl, fun _ _ different => .inl different⟩

end Orderly

/-- What is known of an orderly expression after a step. -/
structure Develops (base state : Grammar) (id value : ExprId) (after : Grammar) : Prop where
  turns : ¬ base.arena.Closed id → after.TurnsInto id value
  hardens : after.Hardens id value
  spares : state.SparesCycles after

/-- What the operands stand for, when the answer has been made of them. -/
theorem Rebuilt.related {between : Grammar} {simple made : Expr ExprId} {value : ExprId}
    (rebuilt : Rebuilt limit base between id made value after)
    (asked : Asked limit base state id e simple between)
    (found : base.arena.slot? id = some (.expr e)) :
    e.Related (fun o s => after.Reflects (after.arena.resolve o) s) simple := by
  have course := rebuilt.onwards.course
  have carries := rebuilt.onwards.carries asked.onwards.course.side.wellFormed
  refine asked.related.imp_of_mem fun o member s related => ?_
  rw [course.side.fromBase.resolve course.wellFormed (course.wellFormed.operand_lt found o member)]
  exact carries.reflects related.1

theorem Rebuilt.develops {between : Grammar} {simple : Expr ExprId}
    (rebuilt : Rebuilt limit base between id simple value after)
    (asked : Asked limit base state id e simple between)
    (found : base.arena.slot? id = some (.expr e)) (orderly : base.arena.Orderly id) :
    Develops base state id value after := by
  have onwards := rebuilt.onwards
  have course := onwards.course
  have found' := course.side.fromBase.grows.expr found
  refine ⟨fun _ => ?_, ?_, ?_⟩
  · exact turnsInto_of_rebuilds course.side.wellFormed course.normal.tracked
      (fun running => (course.links running).1)
      ((course.orderly_iff (Arena.lt_size_of_slot? found)).mpr orderly) found'
      (rebuilt.related asked found) rebuilt.rebuilds
  · exact hardens_of_rebuilds course.side.wellFormed found' (rebuilt.related asked found)
      rebuilt.rebuilds
  · exact (asked.spares orderly).trans rebuilt.spares onwards.retains.grows onwards.retains.wellFormed

/-- An operator that is neither a letter nor a sequence. -/
theorem Hardens.of_expr (found : after.arena.slot? id = some (.expr e)) (noLetter : e.operands ≠ [])
    (noCat : ∀ first second, e ≠ .cat first second)
    (tight : e.IsTight → after.arena.IsTight value) : after.Hardens id value := by
  have same : ∀ {e'}, after.arena.slot? id = some (.expr e') → e = e' := by
    intro e' found'
    simpa [found] using found'
  exact
    { letter := fun found' isLetter => absurd (same found' ▸ isLetter.1) noLetter
      tight := fun found' isTight => tight (same found' ▸ isTight)
      cat := fun found' => absurd (same found') (noCat _ _) }

namespace Asked

variable (asked : Asked limit base state id (.alt left right) (.alt l r) between)

include asked

theorem tells_left (closed : base.arena.Closed (base.arena.resolve left)) :
    between.Tells (base.arena.resolve left) l := by
  cases asked.related with
  | alt isLeft _ => exact isLeft.2 closed

theorem tells_right (closed : base.arena.Closed (base.arena.resolve right)) :
    between.Tells (base.arena.resolve right) r := by
  cases asked.related with
  | alt _ isRight => exact isRight.2 closed

variable (found : base.arena.slot? id = some (.expr (.alt left right)))

include found

/-- What something without operands was simplified to has none either. -/
theorem isLeaf (isLeaf : base.arena.IsLeaf left) : between.arena.IsLeaf l := by
  have course := asked.onwards.course
  have wellFormed := course.wellFormed
  have left_lt := wellFormed.operand_lt found left (by simp [Expr.operands])
  have closed := isLeaf.closed wellFormed
  obtain ⟨e, stands, isLeaf⟩ := isLeaf
  refine (course.normal.entry (asked.tells_left closed).told
    ((course.closed_iff (wellFormed.resolve_lt left_lt)).mpr closed)).isLeaf ?_
  rw [course.view_base stands closed, Expr.operands_map, isLeaf]
  rfl

variable (orderly : base.arena.Orderly id)

include orderly

/-- What something firm was simplified to is firm. -/
theorem firm (firm : base.arena.Firm left) : between.arena.Firm l := by
  have course := asked.onwards.course
  have wellFormed := course.wellFormed
  have left_mem : left ∈ (Expr.alt left right).operands := by simp [Expr.operands]
  have left_lt := wellFormed.operand_lt found left left_mem
  have resolved := course.side.fromBase.resolve wellFormed left_lt
  have orderly' := orderly.of_reaches wellFormed (wellFormed.reaches_resolve_operand found left_mem)
  have tracked : between.Tracked := course.normal.tracked
  refine tracked.firm (fun running => (course.links running).1) course.side.wellFormed
    ((course.side.fromBase.firm_iff wellFormed left_lt).mpr firm) ?_ ?_
  · rw [resolved]
    exact (course.orderly_iff (wellFormed.resolve_lt left_lt)).mpr orderly'
  · rw [resolved]
    cases asked.related with
    | alt isLeft _ => exact isLeft.1

/-- What is made of a union whose operands were exchanged. -/
theorem develops_swapped (rebuilt : Rebuilt limit base between id (.alt r l) value after)
    (isOpen : ¬ base.arena.Closed id) (isLeaf : base.arena.IsLeaf right) :
    Develops base state id value after := by
  have onwards := rebuilt.onwards
  have course := onwards.course
  have fromBase := course.side.fromBase
  have found' := fromBase.grows.expr found
  have isInside := Arena.lt_size_of_slot? found
  have closed := onwards.retains.closed (asked.tells_right (isLeaf.closed course.wellFormed)).closed
  refine ⟨fun _ => ?_, .of_expr found' (by simp [Expr.operands]) nofun False.elim, ?_⟩
  · cases rebuilt.related asked found with
    | alt isLeft isRight =>
        exact turnsInto_of_swapped course.side.wellFormed course.normal.tracked
          ((course.orderly_iff isInside).mpr orderly)
          (fun closed => isOpen ((course.closed_iff isInside).mp closed)) found' isLeft isRight
          (isLeaf.grows fromBase.grows course.wellFormed course.side.wellFormed) closed
          rebuilt.rebuilds
  · exact (asked.spares orderly).trans rebuilt.spares onwards.retains.grows onwards.retains.wellFormed

/-- Of a tree only what was compared is said here. -/
theorem ensures_closed_alt_develops (closed : base.arena.Closed id) :
    Ensures (simplifyAlt id left right l r) between (Develops base state id) := by
  have course := asked.onwards.course
  have found' := course.side.fromBase.grows.expr found
  have isClosed : base.arena.Closed (base.arena.resolve left) := by
    refine (closed.of_mem (o := left) ?_).resolve
    rw [Arena.get_of_stands (Arena.stands_of_expr found)]
    simp [Expr.operands]
  refine (course.ensures_simplifyAlt_spares found' (asked.inside l (by simp [Expr.operands]))
    (asked.inside r (by simp [Expr.operands])) (asked.tells_left isClosed).closed).mono
    fun value after ⟨onwards, spares⟩ => ⟨fun isOpen => absurd closed isOpen, ?_, ?_⟩
  · exact .of_expr (onwards.retains.grows.expr found') (by simp [Expr.operands]) nofun False.elim
  · exact (asked.spares orderly).trans spares onwards.retains.grows onwards.retains.wellFormed

/-- A union that is above a cycle has an operand without operands, and so does its copy. -/
theorem ensures_alt_develops (resolved : base.arena.resolve id = id) :
    Ensures (simplifyAlt id left right l r) between (Develops base state id) := by
  have course := asked.onwards.course
  have found' := course.side.fromBase.grows.expr found
  have inside := asked.inside l (by simp [Expr.operands])
  have inside' := asked.inside r (by simp [Expr.operands])
  by_cases closed : base.arena.Closed id
  · exact asked.ensures_closed_alt_develops found orderly closed
  rcases orderly.heads (by simpa [resolved] using base.arena.reaches_self id) found closed with
    isLeaf | ⟨firm, isLeaf⟩
  · have isLeaf' := asked.isLeaf found isLeaf
    refine (course.ensures_simplifyAlt_rebuilt found' inside inside'
      (fun _ _ => isLeaf'.firm.not_alt)
      (.inl (asked.tells_left (isLeaf.closed course.wellFormed)).closed)).mono
      fun value after rebuilt => ?_
    rcases rebuilt with rebuilt | ⟨notLeaf, _⟩
    · exact rebuilt.develops asked found orderly
    · exact absurd isLeaf' notLeaf
  · refine (course.ensures_simplifyAlt_rebuilt found' inside inside'
      (fun _ _ => (asked.firm found orderly firm).not_alt)
      (.inr (asked.tells_right (isLeaf.closed course.wellFormed)).closed)).mono
      fun value after rebuilt => ?_
    rcases rebuilt with rebuilt | ⟨_, rebuilt⟩
    · exact rebuilt.develops asked found orderly
    · exact asked.develops_swapped found orderly rebuilt closed isLeaf

end Asked

/-- A step makes a copy of an orderly expression, or leads to what becomes of something below. -/
theorem ensures_simplifyStep_develops {recur : ExprId → Eval Grammar ExprId}
    (asked : ∀ {state key}, Course limit base state → key.number < base.arena.size →
      base.arena.resolve key = key → Above base state key →
      Ensures (recur key) state (Responds limit base state key))
    (course : Course limit base state)
    (within : ∀ {key link}, state.Running key link → ReflTransGen base.arena.Child key id)
    (inside : id.number < base.arena.size) (resolved : base.arena.resolve id = id) :
    Ensures (simplifyStep recur id) state fun value after => base.arena.Orderly id →
      Develops base state id value after := by
  refine Ensures.of_imp fun orderly => ?_
  have wellFormed := course.wellFormed
  obtain ⟨e, found⟩ := wellFormed.exists_expr_of_reaches inside orderly.defined
    (base.arena.reaches_self id)
  rw [resolved] at found
  rw [simplifyStep_eq, ensures_bind, ensures_get, course.get_eq found]
  by_cases never : ∃ lang, e = .rep lang (.finite 0)
  · obtain ⟨lang, rfl⟩ := never
    have isEmpty := course.side.wellFormed.stands_empty
    refine (ensures_pure _ _).mpr ⟨fun _ => .closed ?_, ?_, fun _ different => .inl different⟩
    · exact course.side.wellFormed.closed_empty.resolve
    · exact .of_expr (course.side.fromBase.grows.expr found) (by simp [Expr.operands]) nofun
        fun _ => ⟨.empty, isEmpty, trivial⟩
  · have repeated : ∀ lang, e ≠ .rep lang (.finite 0) := fun lang isNever => never ⟨lang, isNever⟩
    rw [simplifyOperator_eq repeated]
    refine (ensures_bind _ _ _).mpr ((ensures_asked asked course within found).mono ?_)
    intro simple between asked
    have course := asked.onwards.course
    have found' := course.side.fromBase.grows.expr found
    by_cases union : ∃ left right, e = .alt left right
    · obtain ⟨left, right, rfl⟩ := union
      obtain ⟨l, r, rfl⟩ : ∃ l r, simple = .alt l r := by
        cases asked.related
        exact ⟨_, _, rfl⟩
      exact asked.ensures_alt_develops found orderly resolved
    · refine (course.ensures_simplifyFrom_rebuilt asked.related found' ?_ repeated
        asked.inside).mono fun value after rebuilt => rebuilt.develops asked found orderly
      exact fun left right isUnion => union ⟨left, right, isUnion⟩

/-! ## Nested evaluations -/

theorem Course.tells (course : Course limit base state) (told : state.SimplifiesTo key value)
    (closed : base.arena.Closed key) : state.Tells key value :=
  have entry := course.normal.entry told
    ((course.closed_iff (course.inside told).1).mpr closed)
  ⟨told, entry.closed, entry.resolved⟩

/-- What is known is the answer. -/
theorem Course.responds (course : Course limit base state) (told : state.SimplifiesTo key value) :
    Responds limit base state key value state :=
  ⟨course.refl, (course.inside told).2, course.tells told, reflects_of_told told,
    fun _ _ different => .inl different⟩

/-- Keys below the ones that are being evaluated are answered, and nothing that is known is lost. -/
def RespondsBelow (limit : Nat) (base : Grammar) (fuel : Nat) : Prop :=
  ∀ {state key}, Course limit base state → key.number < base.arena.size →
    base.arena.resolve key = key → Above base state key →
    Ensures (simplifications.solve fuel key) state (Responds limit base state key)

theorem ensures_pass_responds (below : RespondsBelow limit base fuel)
    (course : Course limit base state) (inside : key.number < base.arena.size)
    (resolved : base.arena.resolve key = key) (above : Above base state key)
    (isUnknown : state.tables.simplified.lookup key = .unknown) :
    Ensures (simplifications.pass fuel key state.arena.reserve.1)
      (state.enter (simplification base).modifyTable key) (Responds limit base state key) := by
  have entering := course.enter inside isUnknown
  have within : ∀ {other link}, (state.enter (simplification base).modifyTable key).Running other
      link → ReflTransGen base.arena.Child other key := by
    intro other link running
    by_cases same : other = key
    · subst same
      exact .refl
    · exact (above ((entering.others same).mp running)).to_reflTransGen
  refine ensures_transformation_pass (((ensures_simplifyStep below entering.course within inside
    resolved).and (ensures_simplifyStep_develops below entering.course within inside
    resolved)).mono fun value between ⟨simplifies, develops⟩ => ?_)
  have becomes : base.arena.Orderly key → between.Becomes key value := by
    intro orderly
    refine ⟨?_, (develops orderly).hardens⟩
    by_cases closed : base.arena.Closed key
    · exact .closed (simplifies.entry closed).closed.resolve
    · exact (develops orderly).turns closed
  obtain ⟨onwards, told, retains⟩ := entering.leave simplifies.onwards inside course.side.fromBase
    simplifies.inside simplifies.entry becomes rfl
  refine ⟨onwards, (onwards.course.inside told).2, onwards.course.tells told,
    reflects_of_told told, fun orderly => ?_⟩
  -- Neither entering nor leaving compares anything.
  exact (develops orderly).spares.trans (fun _ different => .inl different) retains.grows
    retains.wellFormed

/-- An outermost evaluation settles what it finds out. -/
theorem ensures_outermost_responds (below : RespondsBelow limit base fuel)
    (course : Course limit base state) (inside : key.number < base.arena.size)
    (resolved : base.arena.resolve key = key) (above : Above base state key)
    (isUnknown : state.tables.simplified.lookup key = .unknown)
    (notInUse : state.tables.simplified.inUse = false) :
    Ensures (simplifications.solve (fuel + 1) key) state (Responds limit base state key) := by
  have idle : ∀ key link, ¬ state.Running key link := by
    intro key link running
    cases (Table.not_inUse_iff.mp notInUse key).symm.trans running
  have started := course.mark (f := Table.startPasses) (fun _ => rfl) (fun _ => rfl) fun _ => rfl
  refine ensures_transformation_outermost (simplification_isField base) isUnknown notInUse
    course.singlePass ?_
  refine (ensures_pass_responds below started.course inside resolved above isUnknown).mono ?_
  rintro value after ⟨onwards, isInside, tells, reflects, spares⟩
  obtain ⟨committed, told_iff⟩ := (started.trans onwards).commit idle rfl
  refine ⟨onwards.course.singlePass, committed, isInside, fun closed => ?_, ?_, spares⟩
  · exact committed.course.tells (told_iff.mpr (tells closed).told) closed
  · obtain ⟨target, told | running, same⟩ := reflects
    · exact ⟨target, .inl (told_iff.mpr told), same⟩
    · exact absurd ((started.trans onwards).running_iff.mp running) (idle _ _)

theorem respondsBelow (fuel : Nat) : RespondsBelow limit base fuel := by
  induction fuel with
  | zero => exact fun _ _ _ _ => ensures_throw _ _
  | succ fuel inductionHypothesis =>
      intro state key course inside resolved above
      rcases state.tables.simplified.lookup_cases key with
        ⟨value, _, isKnown⟩ | ⟨_, link, running, isReentrant⟩ | ⟨_, value, _, isKnown⟩ |
        ⟨_, _, isUnknown⟩
      · exact (Recursion.ensures_solve_known isKnown).mpr (course.responds isKnown)
      · refine (Recursion.ensures_solve_reentrant isReentrant).mpr ?_
        refine ⟨course.mark (f := Table.markReentered) (fun _ => rfl) (fun _ => rfl) fun _ => rfl,
          (course.pending running).2.2, fun closed => ?_, reflects_of_running running,
          fun _ _ different => .inl different⟩
        -- A closed expression is not below itself.
        have grounded := course.wellFormed.grounded_resolve.mp closed.grounded
        exact absurd (above running) (Arena.not_transGen_of_acc grounded)
      · exact (Recursion.ensures_solve_known isKnown).mpr (course.responds isKnown)
      · cases inUse : state.tables.simplified.inUse with
        | false =>
            exact ensures_outermost_responds inductionHypothesis course inside resolved above
              isUnknown inUse
        | true =>
            exact ensures_transformation_nested isUnknown inUse
              (ensures_pass_responds inductionHypothesis course inside resolved above isUnknown)

/-! ## Outermost calls -/

/-- What a call of the simplification keeps, and what it finds out. -/
structure Learns (limit : Nat) (before : Grammar) (id value : ExprId) (after : Grammar) : Prop where
  retains : before.Retains after
  normal : after.Normal limit
  tells : before.arena.Closed id → after.Tells (before.arena.resolve id) value
  told : ∃ target, after.SimplifiesTo (before.arena.resolve id) target ∧
    after.arena.resolve value = after.arena.resolve target
  spares : before.arena.Orderly (before.arena.resolve id) → before.SparesCycles after

/-- Before a simplification starts, all that is known is settled. -/
theorem course_of_idle (side : SimplificationSide base base) (kept : SimplifiedKept base)
    (limited : limit ≤ base.arena.size) (normal : base.Normal limit) : Course limit base base where
  wellFormed := side.wellFormed
  limited := limited
  side := side
  singlePass := kept.singlePass
  inside told := by
    rcases Table.lookup_eq_known_iff.mp told with settled | ⟨_, evaluated⟩
    · exact ⟨normal.inside told, kept.settled_lt settled⟩
    · cases (kept.idle _).symm.trans evaluated
  pending found := by cases (kept.idle _).symm.trans found
  links running := by cases (kept.idle _).symm.trans running
  normal := normal

theorem ensures_computeSimplified (side : SimplificationSide base base) (kept : SimplifiedKept base)
    (inside : id.number < base.arena.size) :
    Ensures (computeSimplified id) base fun value after =>
      ∀ limit ≤ base.arena.size, base.Normal limit → Learns limit base id value after := by
  have wellFormed := side.wellFormed
  constructor
  intro value after answered limit limited normal
  have course := course_of_idle side kept limited normal
  have solved : Ensures (computeSimplified id) base
      (Responds limit base base (base.arena.resolve id)) := by
    unfold computeSimplified
    simp only [ensures_bind, ensures_get]
    refine respondsBelow _ course (wellFormed.resolve_lt inside) (wellFormed.resolve_resolve id) ?_
    intro other link running
    cases (kept.idle other).symm.trans running
  obtain ⟨onwards, _, tells, ⟨target, told | running, same⟩, spares⟩ := solved.of_ok answered
  · exact ⟨onwards.retains, onwards.course.normal, fun closed => tells closed.resolve,
      ⟨target, told, same⟩, spares⟩
  · cases (kept.idle _).symm.trans (onwards.running_iff.mp running)

end Residual.Grammar
