import Residual.Proofs.Arena.Definedness
import Residual.Proofs.Arena.Patches
import Residual.Proofs.Arena.Unfolding
import Residual.Proofs.Expr.NormalForm

/-!
# Closed expressions

An expression is closed if neither itself nor an unbound link can be reached from it.  It has a
tree, and nothing about it changes while the arena grows.
-/

set_option autoImplicit false

namespace Residual.Arena

variable {arena before after : Arena} {id id' o : ExprId} {e : Expr ExprId} {t : Tree} {limit : Nat}

/-- Below the expression there are no cycles and no unbound links. -/
structure Closed (arena : Arena) (id : ExprId) : Prop where
  wellFormed : arena.WellFormed
  unfoldable : arena.Unfoldable Set.univ id

open Classical in
/-- The tree of a closed expression. -/
noncomputable def tree (arena : Arena) (id : ExprId) : Tree :=
  if closed : arena.Closed id then closed.unfoldable.choose else .undefined id

open Classical in
/-- The operator of a closed expression, with its operands resolved. -/
noncomputable def view (arena : Arena) (id : ExprId) : Expr ExprId :=
  if arena.Closed id then (arena.get id).map arena.resolve else .nil

theorem closed_of_view_ne_nil (known : arena.view id ≠ .nil) : arena.Closed id := by
  by_contra unknown
  exact known (if_neg unknown)

theorem WellFormed.closed (wellFormed : arena.WellFormed)
    (unfolds : arena.Unfolds Set.univ id t) : arena.Closed id :=
  ⟨wellFormed, t, unfolds⟩

theorem Closed.of_resolve (closed : arena.Closed (arena.resolve id)) : arena.Closed id := by
  obtain ⟨wellFormed, t, unfolds⟩ := closed
  exact wellFormed.closed (unfolds.of_resolve wellFormed)

/-- What stands for closed operands is closed. -/
theorem WellFormed.closed_of_expr (wellFormed : arena.WellFormed)
    (found : arena.slot? id = some (.expr e)) (operands : ∀ o ∈ e.operands, arena.Closed o) :
    arena.Closed id :=
  ⟨wellFormed, .node found fun o member => (operands o member).unfoldable⟩

theorem WellFormed.closed_nil (wellFormed : arena.WellFormed) : arena.Closed .nil :=
  wellFormed.closed_of_expr wellFormed.nil (List.forall_mem_nil _)

theorem WellFormed.closed_empty (wellFormed : arena.WellFormed) : arena.Closed .empty :=
  ⟨wellFormed, .empty wellFormed⟩

/-- An expression without cycles and undefined references is closed. -/
theorem WellFormed.unfolds_of_defined (wellFormed : arena.WellFormed)
    (unfolds : arena.Unfolds ∅ id t) (defined : arena.Defined id) :
    arena.Unfolds Set.univ id t := by
  induction unfolds with
  | undefined unbound _ => exact absurd defined (not_defined_of_unbound unbound)
  | link found _ inductionHypothesis =>
      refine .link found (inductionHypothesis ?_)
      exact (defined_congr (wellFormed.resolve_link found)).mp defined
  | node trees found _ inductionHypothesis =>
      refine .node trees found fun o member => inductionHypothesis o member ?_
      refine wellFormed.defined_operand defined ?_
      rwa [get_of_stands (stands_of_expr found)]

/-- An expression below which there is neither a cycle nor an undefined reference is closed. -/
theorem WellFormed.closed_of_acyclic (wellFormed : arena.WellFormed)
    (inside : id.number < arena.size) (acyclic : arena.Acyclic id) (defined : arena.Defined id) : arena.Closed id := by
  obtain ⟨t, unfolds⟩ :=
    Unfoldable.of_grounded wellFormed inside (wellFormed.grounded_of_acyclic acyclic)
  exact wellFormed.closed (wellFormed.unfolds_of_defined unfolds defined)

theorem Unfolds.of_univ {placeholders : Set ExprId} (unfolds : arena.Unfolds Set.univ id t) :
    arena.Unfolds placeholders id t := by
  induction unfolds with
  | undefined _ isReference => exact absurd trivial isReference
  | link found _ inductionHypothesis => exact .link found inductionHypothesis
  | node trees found _ inductionHypothesis => exact .node trees found inductionHypothesis

namespace Closed

variable (closed : arena.Closed id)

include closed

theorem unfolds : arena.Unfolds Set.univ id (arena.tree id) := by
  unfold Arena.tree
  rw [dif_pos closed]
  exact closed.unfoldable.choose_spec

theorem tree_eq (unfolds : arena.Unfolds Set.univ id t) : arena.tree id = t :=
  closed.unfolds.unique unfolds

theorem view_eq : arena.view id = (arena.get id).map arena.resolve :=
  if_pos closed

theorem lt_size : id.number < arena.size :=
  closed.unfoldable.lt_size

theorem grounded : arena.Grounded (arena.resolve id) :=
  closed.unfolds.grounded closed.wellFormed

theorem resolve : arena.Closed (arena.resolve id) :=
  ⟨closed.wellFormed, closed.unfoldable.resolve closed.wellFormed⟩

theorem tree_resolve : arena.tree (arena.resolve id) = arena.tree id :=
  closed.resolve.tree_eq (closed.unfolds.resolve closed.wellFormed)

theorem stands : arena.Stands id (arena.get id) := by
  obtain ⟨t, unfolds⟩ := closed.unfoldable.resolve closed.wellFormed
  generalize start : arena.resolve id = last at unfolds
  cases unfolds with
  | undefined _ isReference => exact absurd trivial isReference
  | link found _ => exact absurd (start ▸ found) (closed.wellFormed.resolve_final id _)
  | node _ found _ =>
      subst start
      rwa [get_of_stands found]

theorem get? : arena.get? id = some (arena.get id) :=
  (closed.wellFormed.get?_eq_some closed.lt_size).mpr closed.stands

/-- The operands are closed. -/
theorem of_mem (member : o ∈ (arena.get id).operands) : arena.Closed o :=
  ⟨closed.wellFormed, closed.unfoldable.operand closed.wellFormed member⟩

theorem of_mem_view (member : o ∈ (arena.view id).operands) :
    arena.Closed o ∧ arena.resolve o = o := by
  rw [closed.view_eq, Expr.operands_map] at member
  obtain ⟨operand, isOperand, rfl⟩ := List.mem_map.mp member
  exact ⟨(closed.of_mem isOperand).resolve, closed.wellFormed.resolve_resolve operand⟩

theorem tree_eq_node : arena.tree id = .node ((arena.view id).map arena.tree) := by
  rcases closed.unfolds.cases_resolve closed.wellFormed with
    ⟨unbound, _⟩ | ⟨e, trees, stands, below, isTree⟩
  · simp [show arena.slot? (arena.resolve id) = _ from closed.stands] at unbound
  · rw [isTree, closed.view_eq, get_of_stands stands, Expr.map_map]
    refine congrArg Tree.node (Expr.map_congr fun o member => ?_)
    have isOperand : arena.Closed o := closed.wellFormed.closed (below o member)
    rw [isOperand.tree_resolve, isOperand.tree_eq (below o member)]

end Closed

/-- Whatever is below is closed. -/
theorem Closed.of_reaches (closed : arena.Closed id) (reaches : arena.Reaches id o) :
    arena.Closed o := by
  induction reaches with
  | refl => exact closed.resolve
  | tail _ child inductionHypothesis =>
      exact ⟨closed.wellFormed, inductionHypothesis.unfoldable.child closed.wellFormed child⟩

theorem Closed.acyclic (closed : arena.Closed id) : arena.Acyclic id := by
  obtain ⟨lang, denotes⟩ := closed.wellFormed.exists_denotes_of_grounded closed.grounded
  exact closed.wellFormed.acyclic_of_denotes denotes

theorem Closed.defined (closed : arena.Closed id) : arena.Defined id := by
  intro o reaches
  have isClosed := closed.of_reaches reaches
  by_contra isUnbound
  have unbound := isUnbound_iff.mp ((Bool.not_eq_false _).mp isUnbound)
  obtain ⟨tree, unfolds⟩ := isClosed.unfoldable
  cases unfolds with
  | undefined _ isReference => exact isReference trivial
  | link found _ | node _ found _ => cases unbound.symm.trans found

theorem mass_tree (arena : Arena) (id : ExprId) :
    (arena.tree id).mass = ((arena.view id).map fun o => (arena.tree o).mass).mass := by
  by_cases closed : arena.Closed id
  · rw [closed.tree_eq_node, Tree.mass_node, Expr.map_map]
  · rw [Arena.tree, view, dif_neg closed, if_neg closed]
    rfl

/-- The view of an expression that is no link. -/
theorem Closed.view_of_expr (closed : arena.Closed id) (found : arena.slot? id = some (.expr e)) :
    arena.view id = e.map arena.resolve := by
  rw [closed.view_eq, get_of_stands (stands_of_expr found)]

theorem Closed.tree_of_get? (closed : arena.Closed id) (known : arena.get? id = some e) :
    arena.tree id = .node (e.map arena.tree) := by
  cases known.symm.trans closed.get?
  rw [closed.tree_eq_node, closed.view_eq, Expr.map_map]
  exact congrArg Tree.node (Expr.map_congr fun o member => (closed.of_mem member).tree_resolve)

theorem Closed.tree_of_expr (closed : arena.Closed id) (found : arena.slot? id = some (.expr e)) :
    arena.tree id = .node (e.map arena.tree) :=
  closed.tree_of_get? ((closed.wellFormed.get?_eq_some closed.lt_size).mpr (stands_of_expr found))

theorem Closed.tree_eq_atom_iff (closed : arena.Closed id) :
    (arena.tree id = .node .nil ↔ arena.get? id = some .nil) ∧
      (arena.tree id = .node .empty ↔ arena.get? id = some .empty) := by
  rw [closed.tree_of_get? closed.get?, closed.get?]
  cases arena.get id <;> simp [Expr.map]

theorem WellFormed.tree_empty (wellFormed : arena.WellFormed) :
    arena.tree .empty = .node .empty := by
  rw [wellFormed.closed_empty.tree_of_expr wellFormed.empty]
  rfl

theorem WellFormed.tree_nil (wellFormed : arena.WellFormed) : arena.tree .nil = .node .nil := by
  rw [(wellFormed.closed_of_expr wellFormed.nil (by simp [Expr.operands])).tree_of_expr
    wellFormed.nil]
  rfl

/-! ## Equal trees -/

/-- A bisimulation relates trees to themselves only. -/
theorem Unfolds.eq_of_bisimulation (wellFormed : arena.WellFormed)
    {Related : ExprId → ExprId → Prop} (bisimulation : arena.IsBisimulation Related)
    (unfolds : arena.Unfolds Set.univ id t) {t' : Tree}
    (unfolds' : arena.Unfolds Set.univ id' t')
    (related : Related (arena.resolve id) (arena.resolve id')) : t = t' := by
  induction unfolds generalizing id' t' with
  | undefined _ isReference => exact absurd trivial isReference
  | link found _ inductionHypothesis =>
      rw [wellFormed.resolve_link found] at related
      exact inductionHypothesis unfolds' related
  | @node id e trees found below inductionHypothesis =>
      have unfolds' := unfolds'.resolve wellFormed
      rw [resolve_of_expr found] at related
      rcases bisimulation.cases related with same | ⟨_, e', found₁, found', sameShape, operands⟩
      · exact (Unfolds.node trees found below).unique (same ▸ unfolds')
      · cases found.symm.trans found₁
        obtain ⟨trees', below', rfl⟩ := unfolds'.of_expr found'
        refine congrArg Tree.node (Expr.map_eq_map_iff.mpr ⟨sameShape, ?_⟩)
        refine (forall₂_mem operands).imp ?_
        rintro o o' ⟨member, member', related⟩
        exact inductionHypothesis o member (below' o' member') related

/-- Closed expressions have the same tree if and only if they are bisimilar. -/
theorem Closed.tree_eq_iff (closed : arena.Closed id) (closed' : arena.Closed id') :
    arena.tree id = arena.tree id' ↔ arena.Bisimilar id id' := by
  have wellFormed := closed.wellFormed
  constructor
  · intro same
    refine ⟨fun x y => arena.Closed x ∧ arena.Closed y ∧ arena.resolve x = x ∧
      arena.resolve y = y ∧ arena.tree x = arena.tree y, .intro ?_, closed.resolve, closed'.resolve,
      wellFormed.resolve_resolve _, wellFormed.resolve_resolve _, ?_⟩
    · rintro x y ⟨closed, closed', resolved, resolved', same⟩
      have found := closed.stands
      have found' := closed'.stands
      rw [Stands, resolved] at found
      rw [Stands, resolved'] at found'
      rw [closed.tree_eq_node, closed'.tree_eq_node, closed.view_eq, closed'.view_eq,
        Expr.map_map, Expr.map_map] at same
      obtain ⟨sameShape, operands⟩ := Expr.map_eq_map_iff.mp (Tree.node.inj same)
      refine .inr ⟨_, _, found, found', sameShape, (forall₂_mem operands).imp ?_⟩
      rintro o o' ⟨member, member', same⟩
      exact ⟨(closed.of_mem member).resolve, (closed'.of_mem member').resolve,
        wellFormed.resolve_resolve _, wellFormed.resolve_resolve _, same⟩
    · rw [closed.tree_resolve, closed'.tree_resolve, same]
  · rintro ⟨Related, bisimulation, related⟩
    exact closed.unfolds.eq_of_bisimulation wellFormed bisimulation closed'.unfolds related

/-! ## Growth -/

section Growth

variable (growing : before.Grows after) (wellFormed' : after.WellFormed)

include growing in
/-- Whatever is bound, closed expressions keep their trees. -/
theorem Grows.fills_univ : Fills Set.univ Set.univ before after :=
  ⟨growing, fun _ isReference => absurd trivial isReference⟩

namespace Closed

variable (closed : before.Closed id)

include growing wellFormed' closed

theorem grows : after.Closed id :=
  ⟨wellFormed', closed.unfoldable.fills growing.fills_univ⟩

theorem tree_grows : after.tree id = before.tree id :=
  (closed.grows growing wellFormed').tree_eq (closed.unfolds.fills growing.fills_univ)

theorem resolve_grows : after.resolve id = before.resolve id :=
  growing.resolve_of_stands closed.wellFormed wellFormed' closed.stands

theorem get_grows : after.get id = before.get id :=
  get_of_stands (growing.stands closed.wellFormed wellFormed' closed.stands)

theorem view_grows : after.view id = before.view id := by
  rw [(closed.grows growing wellFormed').view_eq, closed.view_eq,
    closed.get_grows growing wellFormed']
  exact Expr.map_congr fun o member => (closed.of_mem member).resolve_grows growing wellFormed'

omit wellFormed' in
/-- No links can be bound below it. -/
theorem patched_grows (patched : after.Patched limit id) : before.Patched limit id := by
  obtain ⟨link, target, path, late, bound⟩ := patched
  obtain ⟨tree, unfolds⟩ := closed.unfoldable
  have wellFormed := closed.wellFormed
  clear closed
  induction unfolds with
  | undefined _ isReference => exact absurd trivial isReference
  | @link id next _ found _ inductionHypothesis =>
      have found' := growing.bound found
      rcases path.cases_head with rfl | ⟨other, points, path⟩
      · cases bound.symm.trans found'
        exact ⟨_, _, .refl, late, found⟩
      · rcases points with isTarget | ⟨e, isExpr, _⟩
        · cases isTarget.symm.trans found'
          exact (inductionHypothesis path).of_points (.inl found)
        · cases isExpr.symm.trans found'
  | @node id e _ found _ inductionHypothesis =>
      have found' := growing.expr found
      rcases path.cases_head with rfl | ⟨other, points, path⟩
      · cases bound.symm.trans found'
      · rcases points with isTarget | ⟨e, isExpr, member⟩
        · cases isTarget.symm.trans found'
        · cases isExpr.symm.trans found'
          exact (inductionHypothesis other member path).of_points (.inr ⟨_, found, member⟩)

end Closed

end Growth

/-- Expressions that are closed after new slots were added, and were there before, were closed
before. -/
theorem Closed.of_extends (closed : after.Closed id) (extending : before.Extends after)
    (wellFormed : before.WellFormed) (inside : id.number < before.size) : before.Closed id := by
  refine ⟨wellFormed, ?_⟩
  obtain ⟨tree, unfolds⟩ := closed.unfoldable
  refine ⟨tree, ?_⟩
  clear closed
  induction unfolds with
  | undefined _ isReference => exact absurd trivial isReference
  | link found _ inductionHypothesis =>
      have found := (extending _ inside).symm.trans found
      exact .link found (inductionHypothesis (wellFormed.target_lt found))
  | node trees found _ inductionHypothesis =>
      have found := (extending _ inside).symm.trans found
      exact .node trees found fun o member =>
        inductionHypothesis o member (wellFormed.operand_lt found o member)

/-- Where no late link is bound, the tree was there before. -/
theorem Unfolds.of_not_patched (unfolds : after.Unfolds Set.univ id t)
    (growing : before.Grows after) (agree : Agree limit before after)
    (wellFormed : before.WellFormed) (inside : id.number < before.size)
    (clean : ¬ after.Patched limit id) : before.Unfolds Set.univ id t := by
  induction unfolds with
  | undefined _ isReference => exact absurd trivial isReference
  | link found _ inductionHypothesis =>
      have found' := (slot?_of_not_patched growing agree inside clean).symm.trans found
      exact .link found' (inductionHypothesis (wellFormed.target_lt found') fun patched =>
        clean (patched.of_points (.inl found)))
  | node trees found _ inductionHypothesis =>
      have found' := (slot?_of_not_patched growing agree inside clean).symm.trans found
      exact .node trees found' fun o member =>
        inductionHypothesis o member (wellFormed.operand_lt found' o member) fun patched =>
          clean (patched.of_points (.inr ⟨_, found, member⟩))

end Residual.Arena
