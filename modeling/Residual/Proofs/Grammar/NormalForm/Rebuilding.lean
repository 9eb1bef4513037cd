import Residual.Proofs.Grammar.NormalForm.Closed
import Residual.Proofs.Grammar.NormalForm.Preservation
import Residual.Proofs.Grammar.NormalForm.Promotion

/-!
# Simplification of orderly expressions

A step asks for the simplified forms of the operands, and then makes its answer of them.  Of an
operator other than a union it makes what `Rebuilds` says.  So it does of a union that does not begin
with a union, but that it may exchange the operands.  It does not if the first one has no operands,
since none is lower.

Meanwhile two expressions are called different only if one of them is a tree.
-/

set_option autoImplicit false

namespace Residual.Grammar

open Memo

variable {base state before between after first second third : Grammar} {limit : Nat}
  {id x y operand simple left right l r : ExprId} {e e' : Expr ExprId}

/-! ## Pairs of recursive expressions -/

/-- Pairs that are called different since have a component that is a tree. -/
def SparesCycles (before after : Grammar) : Prop :=
  ∀ pair : ExprId × ExprId, after.tables.equalities.settled[pair]? = some false →
    before.tables.equalities.settled[pair]? = some false ∨ after.arena.Closed pair.1 ∨
      after.arena.Closed pair.2

theorem SparesCycles.trans (earlier : first.SparesCycles second)
    (later : second.SparesCycles third) (growing : second.arena.Grows third.arena)
    (wellFormed : third.arena.WellFormed) : first.SparesCycles third := by
  intro pair different
  rcases later pair different with different | closed
  · exact (earlier pair different).imp_right
      (.imp (·.grows growing wellFormed) (·.grows growing wellFormed))
  · exact .inr closed

/-- A pair with a component that is a tree. -/
def HasTree (arena : Arena) (pair : ExprId × ExprId) : Prop :=
  arena.Closed pair.1 ∨ arena.Closed pair.2

theorem hasTree_unorderedPair {arena : Arena} :
    HasTree arena (Arena.unorderedPair x y) ↔ arena.Closed x ∨ arena.Closed y := by
  unfold HasTree
  rcases Arena.unorderedPair_cases x y with order | order
  · rw [order]
  · rw [order]
    exact or_comm

theorem hasTree_of_pairChild {arena : Arena} {pair pair' : ExprId × ExprId}
    (hasTree : HasTree arena pair) (child : arena.PairChild pair pair') : HasTree arena pair' := by
  obtain ⟨o, o', isChild, isChild', rfl⟩ := child
  have below : ∀ {x o}, arena.Closed x → arena.Child x o → arena.Closed o := fun closed child =>
    (closed.of_mem_view (closed.operands_view ▸ child)).1
  exact hasTree_unorderedPair.mpr (hasTree.imp (below · isChild) (below · isChild'))

open Classical in
/-- A tree is compared by way of pairs that have a tree in them. -/
theorem ensures_equal_spares (wellFormed : state.arena.WellFormed)
    (idle : ∀ pair : ExprId × ExprId, state.tables.equalities.pending[pair]? = none)
    (inside : x.number < state.arena.size) (inside' : y.number < state.arena.size)
    (hasTree : state.arena.Closed x ∨ state.arena.Closed y) :
    Ensures (computeEqual x y) state fun _ after => state.SparesCycles after := by
  let system : EquationSystem (ExprId × ExprId) Bool :=
    { equation := state.arena.equalityEquation
      bottom := fun _ => true
      keys := state.arena.pairs.filter (HasTree state.arena)
      Asks := fun _ _ => True
      Bound := fun pair value => value = false →
        state.tables.equalities.settled[pair]? = some false ∨ HasTree state.arena pair
      asks := fun pair inKeys => (Arena.equalityEquation_asks wellFormed pair).mono
        fun other ⟨⟨_, child⟩, inPairs⟩ => ⟨trivial, Finset.mem_filter.mpr
          ⟨inPairs, hasTree_of_pairChild (Finset.mem_filter.mp inKeys).2 child⟩⟩
      bottom_bound := fun _ _ _ => nofun
      equation_bound := fun pair inKeys _ _ _ => .inr (Finset.mem_filter.mp inKeys).2 }
  have rootInKeys : Arena.unorderedPair (state.arena.resolve x) (state.arena.resolve y) ∈
      system.keys := by
    refine Finset.mem_filter.mpr ⟨Arena.unorderedPair_mem_pairs wellFormed inside inside', ?_⟩
    exact hasTree_unorderedPair.mpr (hasTree.imp (·.resolve) (·.resolve))
  have enough : system.keys.card < state.arena.size * state.arena.size + 1 :=
    Nat.lt_succ_of_le ((Finset.card_filter_le _ _).trans state.arena.card_pairs_le)
  have records : state.tables.equalities.Records system.Bound :=
    ⟨idle, fun found isFalse => .inl (isFalse ▸ found)⟩
  unfold computeEqual
  rw [ensures_bind, ensures_get]
  refine (yields_analysis_records equalities_isField system (fun _ _ => rfl) rfl records rootInKeys
    enough).ensures.mono ?_
  rintro value after ⟨⟨_, arena, _, _⟩, records, _⟩ pair different
  rw [arena]
  exact records.right different rfl

/-! ## What is made of simplified operands -/

/-- The simplified form of an operator without operands has none either. -/
theorem Entry.isLeaf (entry : state.Entry x y) (isLeaf : (state.arena.view x).operands = []) :
    state.arena.IsLeaf y := by
  have closed := entry.closed
  suffices leaf : (state.arena.view y).operands = [] by
    rw [closed.view_eq, Expr.operands_map] at leaf
    exact ⟨_, closed.stands, List.map_eq_nil_iff.mp leaf⟩
  have noOperands : ∀ {e}, (state.arena.view x).Related state.Tells e → e.operands = [] := by
    intro e related
    have operands := related.operands
    rw [isLeaf] at operands
    exact List.forall₂_nil_left_iff.mp operands
  cases entry.made with
  | never isRep => simp [isRep, Expr.operands] at isLeaf
  | unites isAlt _ _ _ _ => simp [isAlt, Expr.operands] at isLeaf
  | keeps _ related _ isView _ => rw [isView, noOperands related]
  | @contracts e _ related contracts =>
      have isLeaf := noOperands related
      cases e with
      | range low high =>
          have isChar : state.arena.tree y = .node (.char low) := by
            change (if low = high then _ else _) = _ at contracts
            split at contracts
            · exact (Option.some.inj contracts).symm
            · cases contracts
          rw [closed.tree_eq_node] at isChar
          cases isView : state.arena.view y with
          | char _ => rfl
          | _ =>
              rw [isView] at isChar
              cases isChar
      | any | empty | nil | char _ | token _ => cases contracts
      | _ => cases isLeaf

/-- The answer that is made of simplified operands. -/
structure Rebuilt (limit : Nat) (base state : Grammar) (id : ExprId) (e : Expr ExprId)
    (value : ExprId) (after : Grammar) : Prop where
  onwards : Onwards limit base state after
  rebuilds : after.arena.Rebuilds id e value
  spares : state.SparesCycles after

theorem Rebuilt.of_onwards {value : ExprId} (onwards : Onwards limit base state between)
    (spares : state.SparesCycles between) (rebuilt : Rebuilt limit base between id e value after) :
    Rebuilt limit base state id e value after :=
  ⟨onwards.trans rebuilt.onwards, rebuilt.rebuilds,
    spares.trans rebuilt.spares rebuilt.onwards.retains.grows rebuilt.onwards.retains.wellFormed⟩

namespace Course

variable (course : Course limit base state)

include course

theorem rebuilt {value : ExprId} (rebuilds : state.arena.Rebuilds id e value) :
    Rebuilt limit base state id e value state :=
  ⟨course.refl, rebuilds, fun _ different => .inl different⟩

/-- What an operator with simplified operands is added as, but for stars. -/
theorem ensures_push_rebuilt (isInside : id.number < state.arena.size) (hasOperand : operand ∈ e.operands)
    (operands : ∀ o ∈ e.operands, o.number < state.arena.size) :
    Ensures (liftM (push e.withStar) : Eval Grammar ExprId) state
      (Rebuilt limit base state id e) := by
  have pushed := course.ensures_push (e := e.withStar) (by simpa using operands)
  rw [Eval.ensures_lift] at pushed ⊢
  obtain ⟨onwards, _, found, isPushed⟩ := pushed
  refine ⟨onwards, .copied found ?_, fun _ different => .inl different⟩
  rw [isPushed, Arena.number_push]
  · exact isInside
  · rw [Expr.operands_withStar]
    exact List.ne_nil_of_mem hasOperand

theorem ensures_rebuild_rebuilt (found : state.arena.slot? id = some (.expr e'))
    (sameShape : e'.shape = e.shape) (noStar : e'.withStar = e') (noStar' : e.withStar = e)
    (isOperand : e'.operands = [operand]) (isOperand' : e.operands = [simple])
    (inside : simple.number < state.arena.size) :
    Ensures (rebuild id operand simple e) state (Rebuilt limit base state id e) := by
  unfold rebuild
  simp only [ensures_bind, ensures_unchanged]
  split
  · rename_i isUnchanged
    obtain rfl := beq_iff_eq.mp isUnchanged
    obtain rfl : e = e'.map state.arena.resolve :=
      Expr.ext_of_shape (by simpa using sameShape.symm) (by simp [isOperand, isOperand'])
    exact (ensures_pure _ _).mpr (course.rebuilt (.unchanged found noStar))
  · have isOperand : simple ∈ e.operands := by simp [isOperand']
    have pushed := course.ensures_push_rebuilt (Arena.lt_size_of_slot? found) isOperand
      (by simpa [isOperand'] using inside)
    rwa [noStar'] at pushed

theorem ensures_simplifyCat_rebuilt (found : state.arena.slot? id = some (.expr (.cat left right)))
    (inside : l.number < state.arena.size) (inside' : r.number < state.arena.size) :
    Ensures (simplifyCat id left right l r) state (Rebuilt limit base state id (.cat l r)) := by
  have first : l ∈ (Expr.cat l r).operands := by simp [Expr.operands]
  have second : r ∈ (Expr.cat l r).operands := by simp [Expr.operands]
  have wellFormed := course.side.wellFormed
  unfold simplifyCat
  simp only [ensures_bind, ensures_shape]
  split
  · rename_i isNil
    have stands := (wellFormed.get?_eq_some inside).mp isNil
    exact (ensures_pure _ _).mpr (course.rebuilt (.operand (.nil first stands)))
  · rename_i isNil _
    have stands := (wellFormed.get?_eq_some inside').mp isNil
    exact (ensures_pure _ _).mpr (course.rebuilt (.operand (.nil second stands)))
  · rename_i isEmpty _
    have stands := (wellFormed.get?_eq_some inside).mp isEmpty
    exact (ensures_pure _ _).mpr (course.rebuilt (.operand (.second stands)))
  · rename_i isEmpty _ _
    have stands := (wellFormed.get?_eq_some inside').mp isEmpty
    exact (ensures_pure _ _).mpr (course.rebuilt (.operand (.first stands)))
  · simp only [ensures_bind, ensures_unchanged]
    split
    · rename_i bothUnchanged
      simp only [Bool.and_eq_true, beq_iff_eq] at bothUnchanged
      obtain ⟨rfl, rfl⟩ := bothUnchanged
      exact (ensures_pure _ _).mpr (course.rebuilt (.unchanged found rfl))
    · exact course.ensures_push_rebuilt (Arena.lt_size_of_slot? found) first
        (by simp [Expr.operands, inside, inside'])

/-- The answer for an operator other than a union. -/
theorem ensures_simplifyFrom_rebuilt {R : ExprId → ExprId → Prop} (related : e.Related R e')
    (found : state.arena.slot? id = some (.expr e)) (noUnion : ∀ left right, e ≠ .alt left right)
    (repeated : ∀ lang, e ≠ .rep lang (.finite 0))
    (inside : ∀ o ∈ e'.operands, o.number < state.arena.size) :
    Ensures (simplifyFrom id e e') state (Rebuilt limit base state id e') := by
  have isInside := Arena.lt_size_of_slot? found
  have wellFormed := course.side.wellFormed
  have tight : ∀ {simple e}, simple ∈ e'.operands → state.arena.get? simple = some e → e.IsTight →
      e'.IsTight → Rebuilt limit base state id e' simple state :=
    fun member known isTight isTight' => course.rebuilt (.operand (.tight isTight' member
      ⟨_, (wellFormed.get?_eq_some (inside _ member)).mp known, isTight⟩))
  have leaf : e.operands = [] → e.withStar = e → state.arena.Rebuilds id e id := by
    intro isLeaf noStar
    have same : e.map state.arena.resolve = e :=
      (Expr.map_congr (by simp [isLeaf])).trans (Expr.map_id e)
    have rebuilds := Arena.Rebuilds.unchanged found noStar
    rwa [same] at rebuilds
  cases related with
  | alt _ _ => exact absurd rfl (noUnion _ _)
  | cat _ _ =>
      exact course.ensures_simplifyCat_rebuilt found (inside _ (by simp [Expr.operands]))
        (inside _ (by simp [Expr.operands]))
  | @not lang simple _ =>
      have simple_lt := inside simple (by simp [Expr.operands])
      unfold simplifyFrom
      simp only [ensures_bind, ensures_shape]
      split
      · rename_i inner known
        simp only [ensures_bind, ensures_get, ensures_pure]
        exact course.rebuilt (.inner ((course.side.wellFormed.get?_eq_some simple_lt).mp known))
      · exact course.ensures_rebuild_rebuilt found rfl rfl rfl rfl rfl simple_lt
  | @opt lang simple _ =>
      have simple_lt := inside simple (by simp [Expr.operands])
      have isEmpty : Rebuilt limit base state id (.opt simple) .empty state :=
        course.rebuilt (.empty wellFormed trivial (List.cons_ne_nil _ _))
      unfold simplifyFrom
      simp only [ensures_bind, ensures_shape]
      split
      · exact (ensures_pure _ _).mpr isEmpty
      · exact (ensures_pure _ _).mpr isEmpty
      · exact course.ensures_rebuild_rebuilt found rfl rfl rfl rfl rfl simple_lt
  | @plus lang simple _ =>
      have isOperand : simple ∈ (Expr.plus simple).operands := by simp [Expr.operands]
      unfold simplifyFrom
      simp only [ensures_bind, ensures_shape]
      split
      · rename_i isNil
        exact (ensures_pure _ _).mpr (tight isOperand isNil trivial trivial)
      · rename_i isEmpty
        exact (ensures_pure _ _).mpr (tight isOperand isEmpty trivial trivial)
      · exact course.ensures_rebuild_rebuilt found rfl rfl rfl rfl rfl (inside simple isOperand)
  | @star lang simple _ =>
      have isOperand : simple ∈ (Expr.star simple).operands := by simp [Expr.operands]
      have isEmpty : Rebuilt limit base state id (.star simple) .empty state :=
        course.rebuilt (.empty wellFormed trivial (List.cons_ne_nil _ _))
      unfold simplifyFrom
      simp only [ensures_bind, ensures_shape]
      split
      · exact (ensures_pure _ _).mpr isEmpty
      · exact (ensures_pure _ _).mpr isEmpty
      · rename_i isStar
        exact (ensures_pure _ _).mpr (tight isOperand isStar trivial trivial)
      · exact course.ensures_rebuild_rebuilt found rfl rfl rfl rfl rfl (inside simple isOperand)
  | range low high =>
      change Ensures (if low = high then liftM (push (.char low)) else pure id) state _
      split
      · have pushed := course.ensures_push (e := .char low) (List.forall_mem_nil _)
        rw [Eval.ensures_lift] at pushed ⊢
        obtain ⟨onwards, _, isChar, _⟩ := pushed
        refine ⟨onwards, ?_, fun _ different => .inl different⟩
        exact .collapsed trivial (Arena.stands_of_expr isChar) rfl fun _ isEmpty => by cases isEmpty
      · exact (ensures_pure _ _).mpr (course.rebuilt (leaf rfl rfl))
  | @rep lang simple count _ =>
      have isOperand : ∀ {count}, simple ∈ (Expr.rep simple count).operands := by simp [Expr.operands]
      have simple_lt := inside simple isOperand
      rcases count with (_ | _ | times) | _
      case finite.zero => exact absurd rfl (repeated lang)
      case finite.succ.zero => exact (ensures_pure _ _).mpr (course.rebuilt (.operand .once))
      case infinite =>
        exact course.ensures_push_rebuilt (e := .rep simple .infinite) isInside isOperand inside
      case finite.succ.succ =>
        exact course.ensures_rebuild_rebuilt found rfl rfl rfl rfl rfl simple_lt
  | any | empty | nil | char _ | token _ =>
      exact (ensures_pure _ _).mpr (course.rebuilt (leaf rfl rfl))

/-! ## Unions -/

/-- A union whose operands are in order already. -/
theorem ensures_uniteOrdered_rebuilt
    (found : state.arena.slot? id = some (.expr (.alt left right)))
    (inside : l.number < state.arena.size) (inside' : r.number < state.arena.size)
    (hasTree : state.arena.Closed l ∨ state.arena.Closed r) :
    Ensures (uniteOrdered id left right l r) state (Rebuilt limit base state id (.alt l r)) := by
  have first : l ∈ (Expr.alt l r).operands := by simp [Expr.operands]
  have second : r ∈ (Expr.alt l r).operands := by simp [Expr.operands]
  have side := course.side
  unfold uniteOrdered
  refine (ensures_bind _ _ _).mpr (((course.ensures_equal inside inside').and
    (ensures_equal_spares side.wellFormed side.equalities.idle inside inside' hasTree)).mono ?_)
  rintro isEqual between ⟨⟨onwards, sameArena, _⟩, spares⟩
  rw [← sameArena] at found inside inside'
  have course := onwards.course
  cases isEqual with
  | true => exact (ensures_pure _ _).mpr ⟨onwards, .operand (.alt first), spares⟩
  | false =>
      simp only [Bool.false_eq_true, if_false, ensures_bind, ensures_shape]
      split
      · exact (ensures_pure _ _).mpr ⟨onwards, .operand (.alt first), spares⟩
      simp only [ensures_bind, ensures_shape]
      split
      · exact (ensures_pure _ _).mpr ⟨onwards, .operand (.alt second), spares⟩
      simp only [ensures_bind, ensures_unchanged]
      split
      · rename_i bothUnchanged
        simp only [Bool.and_eq_true, beq_iff_eq] at bothUnchanged
        obtain ⟨rfl, rfl⟩ := bothUnchanged
        exact (ensures_pure _ _).mpr ⟨onwards, .unchanged found rfl, spares⟩
      · refine (course.ensures_push_rebuilt (e := .alt l r) (Arena.lt_size_of_slot? found) first
          ?_).mono fun value after rebuilt => rebuilt.of_onwards onwards spares
        simp [Expr.operands, inside, inside']

omit course in
theorem ensures_height_spares (side : SimplificationSide base state)
    (inside : id.number < state.arena.size) :
    Ensures (computeHeight id) state fun _ after => state.SparesCycles after := by
  refine (yields_computeHeight side.wellFormed side.heights inside).ensures.mono ?_
  rintro value after ⟨⟨heights, tables, _⟩, _⟩ pair different
  rw [tables] at different
  exact .inl different

/-- Nothing is lower than an operator without operands. -/
theorem height_le_of_leaf {h h' : Nat} (stands : state.arena.Stands x e) (isLeaf : e.operands = [])
    (isHeight : state.tables.heights.settled[state.arena.resolve x]? = some h)
    (isHeight' : state.tables.heights.settled[y]? = some h') : h ≤ h' := by
  have measures := course.normal.measures
  have closed : state.arena.Closed (state.arena.resolve x) :=
    course.side.wellFormed.closed_of_expr stands (by simp [isLeaf])
  have clean : ¬ state.arena.Patched limit (state.arena.resolve x) := by
    intro patched
    obtain ⟨o, member, _⟩ := patched.exists_operand stands
    simp [isLeaf] at member
  have isOne : h = 1 := by
    rw [(measures.height_eq isHeight closed).resolve_right clean, closed.height_tree,
      Arena.operands, Arena.get_of_stands (Arena.stands_of_expr stands), isLeaf]
    rfl
  rw [isOne]
  exact measures.positive isHeight'

/-- The operands of a union keep their order if the first one has no operands. -/
theorem ensures_unite_rebuilt (found : state.arena.slot? id = some (.expr (.alt left right)))
    (inside : l.number < state.arena.size) (inside' : r.number < state.arena.size)
    (hasTree : state.arena.Closed l ∨ state.arena.Closed r) :
    Ensures (unite id left right l r) state fun value after =>
      Rebuilt limit base state id (.alt l r) value after ∨
        ¬ state.arena.IsLeaf l ∧ Rebuilt limit base state id (.alt r l) value after := by
  have side := course.side
  unfold unite
  refine (ensures_bind _ _ _).mpr
    (((course.ensures_height inside).and (ensures_height_spares side inside)).mono ?_)
  rintro leftHeight between ⟨⟨onwards, sameArena, isHeight⟩, spares⟩
  have course := onwards.course
  rw [← sameArena] at found inside inside' hasTree isHeight ⊢
  refine (ensures_bind _ _ _).mpr
    (((course.ensures_height inside').and (ensures_height_spares course.side inside')).mono ?_)
  rintro rightHeight last ⟨⟨onwards', sameArena', isHeight'⟩, spares'⟩
  have course := onwards'.course
  have retains := onwards'.retains
  have both := onwards.trans onwards'
  have spares := spares.trans spares' retains.grows retains.wellFormed
  rw [← sameArena'] at found inside inside' hasTree isHeight isHeight' ⊢
  by_cases higher : leftHeight > rightHeight
  · simp only [higher, if_true]
    refine (course.ensures_uniteOrdered_rebuilt found inside' inside hasTree.symm).mono
      fun value after rebuilt => .inr ⟨fun ⟨e, stands, isLeaf⟩ => ?_, rebuilt.of_onwards both spares⟩
    exact absurd higher (Nat.not_lt_of_le (course.height_le_of_leaf stands isLeaf
      (retains.heights _ _ isHeight) isHeight'))
  · simp only [higher, if_false]
    exact (course.ensures_uniteOrdered_rebuilt found inside inside' hasTree).mono
      fun value after rebuilt => .inl (rebuilt.of_onwards both spares)

/-- A union that does not begin with a union, and that has an operand that is a tree. -/
theorem ensures_simplifyAlt_rebuilt (found : state.arena.slot? id = some (.expr (.alt left right)))
    (inside : l.number < state.arena.size) (inside' : r.number < state.arena.size)
    (noUnion : ∀ inner rest, ¬ state.arena.Stands l (.alt inner rest))
    (hasTree : state.arena.Closed l ∨ state.arena.Closed r) :
    Ensures (simplifyAlt id left right l r) state fun value after =>
      Rebuilt limit base state id (.alt l r) value after ∨
        ¬ state.arena.IsLeaf l ∧ Rebuilt limit base state id (.alt r l) value after := by
  have wellFormed := course.side.wellFormed
  rw [simplifyAlt_eq]
  simp only [ensures_bind, ensures_shape]
  split
  · rename_i inner rest known
    exact absurd ((wellFormed.get?_eq_some inside).mp known) (noUnion inner rest)
  · rw [ensures_bind, ensures_pure]
    exact course.ensures_unite_rebuilt found inside inside' hasTree

/-- A union that begins with a tree. -/
theorem ensures_simplifyAlt_spares (found : state.arena.slot? id = some (.expr (.alt left right)))
    (inside : l.number < state.arena.size) (inside' : r.number < state.arena.size)
    (closed : state.arena.Closed l) :
    Ensures (simplifyAlt id left right l r) state fun _ after =>
      Onwards limit base state after ∧ state.SparesCycles after := by
  have wellFormed := course.side.wellFormed
  have united : ∀ {between l r} {value : ExprId} {after : Grammar},
      Rebuilt limit base between id (.alt l r) value after ∨
        ¬ between.arena.IsLeaf l ∧ Rebuilt limit base between id (.alt r l) value after →
      Onwards limit base between after ∧ between.SparesCycles after := by
    intro between l r value after rebuilt
    rcases rebuilt with rebuilt | ⟨_, rebuilt⟩
    · exact ⟨rebuilt.onwards, rebuilt.spares⟩
    · exact ⟨rebuilt.onwards, rebuilt.spares⟩
  rw [simplifyAlt_eq]
  simp only [ensures_bind, ensures_shape]
  split
  · rename_i inner rest known
    have stands := (wellFormed.get?_eq_some inside).mp known
    have operand_lt := wellFormed.operand_lt stands
    have isClosed : state.arena.Closed (state.arena.resolve inner) := by
      refine (closed.of_mem (o := inner) ?_).resolve
      rw [Arena.get_of_stands stands]
      simp [Expr.operands]
    simp only [ensures_bind, ensures_get]
    have pushed := course.ensures_push (e := .alt rest r) (by
      simp only [Expr.operands, List.mem_cons, List.not_mem_nil, or_false, forall_eq_or_imp,
        forall_eq]
      exact ⟨operand_lt rest (by simp [Expr.operands]), inside'⟩)
    rw [Eval.ensures_lift] at pushed ⊢
    obtain ⟨onwards, isInside, _⟩ := pushed
    have grows := onwards.retains.grows
    rw [ensures_pure]
    have inner_lt := wellFormed.resolve_lt (operand_lt inner (by simp [Expr.operands]))
    refine (onwards.course.ensures_unite_rebuilt (grows.expr found) (grows.lt_size inner_lt)
      isInside (.inl (onwards.retains.closed isClosed))).mono fun value after rebuilt => ?_
    exact ⟨onwards.trans (united rebuilt).1, (united rebuilt).2⟩
  · rw [ensures_bind, ensures_pure]
    exact (course.ensures_unite_rebuilt found inside inside' (.inl closed)).mono
      fun _ _ rebuilt => united rebuilt

end Course

end Residual.Grammar
