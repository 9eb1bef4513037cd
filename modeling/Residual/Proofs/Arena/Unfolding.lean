import Mathlib.Data.Set.Insert
import Residual.Proofs.Arena.Solutions
import Residual.Proofs.Expr.Tree

/-!
# Unfolding an arena

Below an expression that does not contain itself the arena unfolds to a tree, with links replaced by
what they stand for.  Some unbound links may be left out: those that stand for results which are
still being made.  What unfolds without them unfolds to the same tree when they are bound.
-/

set_option autoImplicit false

namespace Residual.Arena

variable {arena before between after : Arena} {id link target : ExprId} {e : Expr ExprId}
  {tree tree' : Tree} {placeholders placeholders' placeholders'' : Set ExprId}

/-- The tree of an expression below which there are no placeholders. -/
inductive Unfolds (arena : Arena) (placeholders : Set ExprId) : ExprId → Tree → Prop where
  | undefined {link : ExprId} : arena.slot? link = some (.link none) → link ∉ placeholders →
      Unfolds arena placeholders link (.undefined link)
  | link {id target : ExprId} {tree : Tree} : arena.slot? id = some (.link (some target)) →
      Unfolds arena placeholders target tree → Unfolds arena placeholders id tree
  | node {id : ExprId} {e : Expr ExprId} (trees : ExprId → Tree) :
      arena.slot? id = some (.expr e) →
      (∀ o ∈ e.operands, Unfolds arena placeholders o (trees o)) →
      Unfolds arena placeholders id (.node (e.map trees))

/-- The expression has a tree. -/
def Unfoldable (arena : Arena) (placeholders : Set ExprId) (id : ExprId) : Prop :=
  ∃ tree, arena.Unfolds placeholders id tree

/-- The arena grew, and no links were bound but placeholders. -/
structure Fills (placeholders placeholders' : Set ExprId) (before after : Arena) : Prop where
  grows : before.Grows after
  undefined : ∀ {link}, before.slot? link = some (.link none) → link ∉ placeholders →
    after.slot? link = some (.link none) ∧ link ∉ placeholders'

namespace Unfolds

theorem leaf (found : arena.slot? id = some (.expr e)) (isLeaf : e.operands = []) :
    arena.Unfolds placeholders id (.node (e.map fun _ => default)) :=
  .node _ found (by simp [isLeaf])

theorem lt_size (unfolds : arena.Unfolds placeholders id tree) : id.number < arena.size := by
  cases unfolds with
  | undefined found _ | link found _ | node _ found _ => exact lt_size_of_slot? found

theorem unique (unfolds : arena.Unfolds placeholders id tree)
    (unfolds' : arena.Unfolds placeholders id tree') : tree = tree' := by
  induction unfolds generalizing tree' with
  | undefined found _ =>
      cases unfolds' with
      | undefined _ _ => rfl
      | link found' _ | node _ found' _ => cases found.symm.trans found'
  | link found _ inductionHypothesis =>
      cases unfolds' with
      | link found' rest =>
          cases found.symm.trans found'
          exact inductionHypothesis rest
      | undefined found' _ | node _ found' _ => cases found.symm.trans found'
  | @node id e trees found _ inductionHypothesis =>
      cases unfolds' with
      | node trees' found' below =>
          cases found.symm.trans found'
          have same : e.map trees = e.map trees' := Expr.ext_of_shape (by simp)
            (by simpa using fun o member => inductionHypothesis o member (below o member))
          rw [same]
      | undefined found' _ | link found' _ => cases found.symm.trans found'

theorem resolve (unfolds : arena.Unfolds placeholders id tree) (wellFormed : arena.WellFormed) :
    arena.Unfolds placeholders (arena.resolve id) tree := by
  induction unfolds with
  | undefined found isReference =>
      rw [resolve_of_final (by simp [found])]
      exact .undefined found isReference
  | link found _ inductionHypothesis =>
      rw [wellFormed.resolve_link found]
      exact inductionHypothesis
  | node trees found below _ =>
      rw [resolve_of_expr found]
      exact .node trees found below

theorem of_resolve (unfolds : arena.Unfolds placeholders (arena.resolve id) tree)
    (wellFormed : arena.WellFormed) : arena.Unfolds placeholders id tree := by
  obtain ⟨steps, chain⟩ := wellFormed.leads_resolve id
  generalize arena.resolve id = last at chain unfolds
  induction chain with
  | stop _ => exact unfolds
  | link found _ inductionHypothesis => exact .link found (inductionHypothesis unfolds)

/-- What a tree is made of: the expression that the number stands for and the trees of its
operands, or an unbound link. -/
theorem cases_resolve (unfolds : arena.Unfolds placeholders id tree)
    (wellFormed : arena.WellFormed) :
    (arena.slot? (arena.resolve id) = some (.link none) ∧ tree = .undefined (arena.resolve id)) ∨
      ∃ e trees, arena.Stands id e ∧
        (∀ o ∈ e.operands, arena.Unfolds placeholders o (trees o)) ∧
        tree = .node (e.map trees) := by
  generalize start : arena.resolve id = last
  cases start ▸ unfolds.resolve wellFormed with
  | undefined found _ => exact .inl ⟨found, rfl⟩
  | link found _ => exact absurd (start ▸ found) (wellFormed.resolve_final id _)
  | node trees found below =>
      subst start
      exact .inr ⟨_, trees, found, below, rfl⟩

theorem of_expr (unfolds : arena.Unfolds placeholders id tree)
    (found : arena.slot? id = some (.expr e)) : ∃ trees,
      (∀ o ∈ e.operands, arena.Unfolds placeholders o (trees o)) ∧ tree = .node (e.map trees) := by
  cases unfolds with
  | node trees found' below =>
      cases found.symm.trans found'
      exact ⟨trees, below, rfl⟩
  | undefined found' _ | link found' _ => cases found.symm.trans found'

/-- The operands of what a number stands for are those of its tree. -/
theorem root_eq (unfolds : arena.Unfolds placeholders id tree) (wellFormed : arena.WellFormed) :
    ∃ trees, (∀ o ∈ (arena.get id).operands, arena.Unfolds placeholders o (trees o)) ∧
      tree.root = (arena.get id).map trees := by
  rcases unfolds.cases_resolve wellFormed with ⟨found, rfl⟩ | ⟨e, trees, stands, below, rfl⟩
  · rw [get_eq_nil_of_unbound found]
    exact ⟨fun _ => default, nofun, rfl⟩
  · rw [get_of_stands stands]
    exact ⟨trees, below, rfl⟩

/-- An expression with a tree does not contain itself. -/
theorem grounded (unfolds : arena.Unfolds placeholders id tree) (wellFormed : arena.WellFormed) :
    arena.Grounded (arena.resolve id) := by
  induction unfolds with
  | @undefined link found _ =>
      refine .intro _ fun y child => ?_
      have isFinal : arena.resolve link = link := resolve_of_final (by simp [found])
      unfold Child Arena.operands at child
      rw [isFinal, get_eq_nil_of_unbound (by rwa [isFinal])] at child
      cases child
  | link found _ inductionHypothesis =>
      rw [wellFormed.resolve_link found]
      exact inductionHypothesis
  | node trees found _ inductionHypothesis =>
      refine .intro _ fun y child => ?_
      unfold Child at child
      rw [wellFormed.operands_resolve, mem_operands_iff, get_of_stands (stands_of_expr found)]
        at child
      obtain ⟨o, member, rfl⟩ := child
      exact inductionHypothesis o member

theorem fills (unfolds : before.Unfolds placeholders id tree)
    (filling : Fills placeholders placeholders' before after) :
    after.Unfolds placeholders' id tree := by
  induction unfolds with
  | undefined found isReference =>
      obtain ⟨found, isReference⟩ := filling.undefined found isReference
      exact .undefined found isReference
  | link found _ inductionHypothesis => exact .link (filling.grows.bound found) inductionHypothesis
  | node trees found _ inductionHypothesis =>
      exact .node trees (filling.grows.expr found) inductionHypothesis

end Unfolds

namespace Fills

theorem refl (placeholders : Set ExprId) (arena : Arena) :
    Fills placeholders placeholders arena arena :=
  ⟨.refl _, fun found isReference => ⟨found, isReference⟩⟩

theorem trans (first : Fills placeholders placeholders' before between)
    (second : Fills placeholders' placeholders'' between after) :
    Fills placeholders placeholders'' before after where
  grows := first.grows.trans second.grows
  undefined found isReference := by
    obtain ⟨found, isReference⟩ := first.undefined found isReference
    exact second.undefined found isReference

theorem of_extends (extending : before.Extends after) :
    Fills placeholders placeholders before after where
  grows := extending.grows
  undefined found isReference :=
    ⟨(extending _ (lt_size_of_slot? found)).trans found, isReference⟩

/-- A new placeholder is below nothing. -/
theorem reserve (arena : Arena) (placeholders : Set ExprId) :
    Fills placeholders (insert arena.reserve.1 placeholders) arena arena.reserve.2 where
  grows := (extends_reserve arena).grows
  undefined {link} found isReference := by
    refine ⟨(extends_reserve arena _ (lt_size_of_slot? found)).trans found, ?_⟩
    rintro (rfl | isPlaceholder)
    · exact absurd (lt_size_of_slot? found) (Nat.lt_irrefl _)
    · exact isReference isPlaceholder

theorem bind (unbound : before.slot? link = some (.link none)) (target : ExprId) :
    Fills (insert link placeholders) placeholders before (before.bind link target).2 where
  grows := grows_bind target unbound
  undefined {other} found isReference := by
    obtain ⟨distinct, isReference⟩ := not_or.mp isReference
    exact ⟨(slot?_bind_of_ne target unbound distinct).trans found, isReference⟩

end Fills

namespace Unfoldable

theorem lt_size (unfoldable : arena.Unfoldable placeholders id) : id.number < arena.size := by
  obtain ⟨tree, unfolds⟩ := unfoldable
  exact unfolds.lt_size

theorem fills (unfoldable : before.Unfoldable placeholders id)
    (filling : Fills placeholders placeholders' before after) :
    after.Unfoldable placeholders' id := by
  obtain ⟨tree, unfolds⟩ := unfoldable
  exact ⟨tree, unfolds.fills filling⟩

theorem resolve (unfoldable : arena.Unfoldable placeholders id) (wellFormed : arena.WellFormed) :
    arena.Unfoldable placeholders (arena.resolve id) := by
  obtain ⟨tree, unfolds⟩ := unfoldable
  exact ⟨tree, unfolds.resolve wellFormed⟩

theorem operand {o : ExprId} (unfoldable : arena.Unfoldable placeholders id)
    (wellFormed : arena.WellFormed) (member : o ∈ (arena.get id).operands) :
    arena.Unfoldable placeholders o := by
  obtain ⟨tree, unfolds⟩ := unfoldable
  obtain ⟨trees, below, _⟩ := unfolds.root_eq wellFormed
  exact ⟨trees o, below o member⟩

/-- The operands of an expression that is known to a transformation. -/
theorem operand_of_known {o : ExprId} (unfoldable : arena.Unfoldable placeholders id)
    (wellFormed : arena.WellFormed) (known : arena.get? id = some e) (member : o ∈ e.operands) :
    arena.Unfoldable placeholders o := by
  refine unfoldable.operand wellFormed ?_
  rwa [get_of_stands ((wellFormed.get?_eq_some unfoldable.lt_size).mp known)]

theorem child {o : ExprId} (unfoldable : arena.Unfoldable placeholders id)
    (wellFormed : arena.WellFormed) (child : arena.Child id o) :
    arena.Unfoldable placeholders o := by
  obtain ⟨o, member, rfl⟩ := mem_operands_iff.mp child
  exact (unfoldable.operand wellFormed member).resolve wellFormed

theorem node (found : arena.slot? id = some (.expr e))
    (operands : ∀ o ∈ e.operands, arena.Unfoldable placeholders o) :
    arena.Unfoldable placeholders id := by
  choose! trees below using operands
  exact ⟨_, .node trees found below⟩

theorem nil (wellFormed : arena.WellFormed) : arena.Unfoldable placeholders .nil :=
  .node wellFormed.nil nofun

theorem empty (wellFormed : arena.WellFormed) : arena.Unfoldable placeholders .empty :=
  .node wellFormed.empty nofun

/-- What does not contain itself has a tree. -/
theorem of_grounded (wellFormed : arena.WellFormed) (inside : id.number < arena.size)
    (grounded : arena.Grounded (arena.resolve id)) : arena.Unfoldable ∅ id := by
  generalize start : arena.resolve id = last at grounded
  induction grounded generalizing id with
  | intro last _ inductionHypothesis =>
      subst start
      suffices unfoldable : arena.Unfoldable ∅ (arena.resolve id) by
        obtain ⟨tree, unfolds⟩ := unfoldable
        exact ⟨tree, unfolds.of_resolve wellFormed⟩
      rcases wellFormed.stands_or_unbound inside with ⟨e, stands⟩ | unbound
      · refine .node stands fun o member => ?_
        have isOperand : o ∈ (arena.get id).operands := by rwa [get_of_stands stands]
        refine inductionHypothesis (arena.resolve o) ?_ (wellFormed.operand_lt stands o member) rfl
        unfold Child
        rw [wellFormed.operands_resolve, mem_operands_iff]
        exact ⟨o, isOperand, rfl⟩
      · exact ⟨_, .undefined unbound (Set.notMem_empty _)⟩

end Unfoldable

/-- Nothing contains itself where operands have lower numbers than what is made of them. -/
theorem WellFormed.not_transGen_of_decreasing (wellFormed : arena.WellFormed)
    (decreasing : ∀ number < arena.size, ∀ o ∈ arena.operands ⟨number⟩, o.number < number)
    (id : ExprId) : ¬ Relation.TransGen arena.Child id id := by
  have child_lt : ∀ {x y}, arena.Child x y → y.number < x.number := by
    intro x y child
    by_cases inside : x.number < arena.size
    · exact decreasing x.number inside y child
    · exact (wellFormed.child_lt child).trans_le (Nat.le_of_not_lt inside)
  have below_lt : ∀ {x y}, Relation.TransGen arena.Child x y → y.number < x.number := by
    intro x y below
    induction below with
    | single child => exact child_lt child
    | tail _ child inductionHypothesis => exact (child_lt child).trans inductionHypothesis
  exact fun cycle => Nat.lt_irrefl _ (below_lt cycle)

end Residual.Arena
