import Residual.Proofs.Grammar.NormalForm.Entries

/-!
# Rounds of simplification

What the tables know of closed expressions follows the laws of rewriting in rounds, whether or not
their heights are right.  Where they are, and where no two expressions are wrongly called different,
the tree of a simplified form is that of a round.
-/

set_option autoImplicit false

namespace Residual.Grammar

open Memo

variable {grammar : Grammar} {limit : Nat} {x y left right l r l' r' o s : ExprId} {e : Expr ExprId}

/-- The simplified operands are the next ones. -/
theorem eq_map_next (related : (grammar.arena.view x).Related grammar.Tells e) :
    e = (grammar.arena.view x).map grammar.rewriting.next :=
  (related.imp fun _ _ tells => (next_eq tells.told).symm).eq_map

theorem active_of_related (closed : grammar.arena.Closed x)
    (related : (grammar.arena.view x).Related grammar.Tells e) :
    ∀ o ∈ (grammar.arena.view x).operands, grammar.rewriting.Active o := by
  intro o member
  obtain ⟨s, _, tells⟩ := related.exists_right member
  exact ⟨(closed.of_mem_view member).1, s, tells.told⟩

/-- A union that is not rearranged takes something away. -/
theorem joins_cases (joins : grammar.Joins x left right l r y) :
    (y = l ∨ y = r) ∨ grammar.arena.view y = .alt l r ∧
      (y = x ∨ grammar.rewriting.Graded y) ∧ (l = left → r = right → y = x) := by
  cases joins with
  | same _ => exact .inl (.inl rfl)
  | altNil _ _ => exact .inl (.inl rfl)
  | nilAlt _ _ _ => exact .inl (.inr rfl)
  | alt _ _ _ isAlt graded unchanged => exact .inr ⟨isAlt, graded, unchanged⟩

theorem mass_empty (wellFormed : grammar.arena.WellFormed) :
    grammar.rewriting.mass .empty = 1 := by
  have closed := wellFormed.closed_empty
  rw [grammar.rewriting.mass_eq]
  change ((grammar.arena.view .empty).map grammar.rewriting.mass).mass = 1
  rw [closed.view_of_expr wellFormed.empty]
  rfl

/-- The tables follow the laws of rewriting. -/
theorem Normal.lawful (normal : grammar.Normal limit) : grammar.rewriting.Lawful := by
  rintro x ⟨closed, y, told⟩
  have entry := normal.entry told closed
  have isNext := next_eq told
  cases entry.made with
  | @never lang isRep =>
      refine .drop ?_
      have isEmpty := mass_empty closed.wellFormed
      have heavy := grammar.rewriting.mass_eq x
      rw [show grammar.rewriting.view x = _ from isRep] at heavy
      rw [isNext, isEmpty, heavy]
      exact Nat.lt_of_lt_of_le Nat.one_lt_two (Nat.le_add_left 2 _)
  | contracts related contracts =>
      refine .shrink (active_of_related closed related) ?_
      have less := Tree.mass_contract contracts
      rw [isNext]
      rw [eq_map_next related, Expr.map_map, Expr.map_map] at less
      exact less
  | keeps single related contracts isView unchanged =>
      have isMap := eq_map_next related
      refine .rebuild single (active_of_related closed related) ?_ fun fixed => ?_
      · rw [isNext]
        exact isView.trans isMap
      · rw [isNext]
        exact unchanged (isMap.trans ((Expr.map_congr fixed).trans (Expr.map_id _)))
  | @unites left right simpleLeft simpleRight l r _ isAlt tells tells' arranges joins =>
      have active : ∀ o ∈ (grammar.arena.view x).operands, grammar.rewriting.Active o := by
        intro o member
        have isClosed := (closed.of_mem_view member).1
        rw [isAlt] at member
        rcases List.mem_pair.mp member with rfl | rfl
        · exact ⟨isClosed, _, tells.told⟩
        · exact ⟨isClosed, _, tells'.told⟩
      have isNextLeft := next_eq tells.told
      have isNextRight := next_eq tells'.told
      rcases joins_cases joins with isOperand | ⟨isView, graded, unchanged⟩
      · refine .shrink active ?_
        have same := arranges.mass_eq
        change grammar.rewriting.mass (grammar.rewriting.next x) <
          ((grammar.arena.view x).map fun o =>
            grammar.rewriting.mass (grammar.rewriting.next o)).mass
        rw [isNext, isAlt]
        simp only [Expr.map, Expr.mass, isNextLeft, isNextRight]
        rcases isOperand with rfl | rfl
        all_goals omega
      · obtain ⟨_, _, turns, orders⟩ := arranges.turned
        rw [← isNextLeft, ← isNextRight] at turns
        refine .unite isAlt (active left ?_) (active right ?_) turns orders ?_ ?_ ?_
        · simp [isAlt, Expr.operands]
        · simp [isAlt, Expr.operands]
        · rw [isNext]
          exact isView
        · rw [isNext]
          exact graded
        · rw [isNext]
          exact unchanged

/-! ## Right tables -/

section Right

variable (normal : grammar.Normal limit)
  (sound : grammar.arena.EqualitySound grammar.tables.equalities)
  (distinguishes : grammar.Distinguishes limit)

include sound in
/-- What is called equal has one tree. -/
theorem tree_eq_of_equal (closed : grammar.arena.Closed l) (closed' : grammar.arena.Closed r)
    (resolved : grammar.arena.resolve l = l) (resolved' : grammar.arena.resolve r = r)
    (found : grammar.tables.equalities.settled[Arena.unorderedPair l r]? = some true) :
    grammar.arena.tree l = grammar.arena.tree r := by
  refine (closed.tree_eq_iff closed').mpr ⟨_, sound.isBisimulation, ?_⟩
  rw [resolved, resolved']
  exact ⟨.inr found, .inr (.inl (resolved ▸ closed.grounded))⟩

include sound distinguishes in
/-- What is called different has two trees, if nothing was bound below. -/
theorem tree_eq_iff (closed : grammar.arena.Closed l) (closed' : grammar.arena.Closed r)
    {isEqual : Bool}
    (resolved : grammar.arena.resolve l = l) (resolved' : grammar.arena.resolve r = r)
    (found : grammar.tables.equalities.settled[Arena.unorderedPair l r]? = some isEqual)
    (clean : ¬ grammar.arena.Patched limit l) (clean' : ¬ grammar.arena.Patched limit r) :
    grammar.arena.tree l = grammar.arena.tree r ↔ isEqual = true := by
  constructor
  · intro same
    cases isEqual with
    | true => rfl
    | false =>
        have patched := distinguishes.patched found
          (Arena.bisimilar_unorderedPair.mpr ((closed.tree_eq_iff closed').mp same))
        exact ((Arena.patched_unorderedPair patched).elim clean clean').elim
  · rintro rfl
    exact tree_eq_of_equal sound closed closed' resolved resolved' found

/-- Heights without late links below are right. -/
theorem Normal.height_eq (normal : grammar.Normal limit) (closed : grammar.arena.Closed x) {h : Nat}
    (isHeight : grammar.rewriting.height x = some h) (clean : ¬ grammar.arena.Patched limit x) :
    h = (grammar.arena.tree x).height :=
  (normal.measures.height_eq isHeight closed).resolve_right clean

theorem tree_of_alt (isAlt : grammar.arena.view x = .alt left right) :
    grammar.arena.tree x = .node (.alt (grammar.arena.tree left) (grammar.arena.tree right)) := by
  rw [(closed_of_alt isAlt).tree_eq_node, isAlt]
  rfl

theorem tree_ne_alt (closed : grammar.arena.Closed x) (single : grammar.rewriting.Single x)
    (l r : Tree) : grammar.arena.tree x ≠ .node (.alt l r) := by
  intro isAlt
  rw [closed.tree_eq_node] at isAlt
  cases isView : grammar.arena.view x with
  | alt left right => exact single left right isView
  | _ =>
      rw [isView] at isAlt
      cases isAlt

theorem tree_eq_nil_iff (closed : grammar.arena.Closed x) :
    grammar.arena.tree x = .node .nil ↔ grammar.arena.view x = .nil := by
  rw [closed.tree_eq_node]
  cases grammar.arena.view x <;> simp [Expr.map]

theorem turn_tree (turns : grammar.rewriting.Turns left right l r)
    (closed : grammar.arena.Closed left) :
    Tree.turn (grammar.arena.tree left) (grammar.arena.tree right) =
      (grammar.arena.tree l, grammar.arena.tree r) := by
  cases turns with
  | flat single =>
      unfold Tree.turn
      split
      · rename_i isAlt
        exact absurd isAlt (tree_ne_alt closed single _ _)
      · rfl
  | turned isAlt isTail _ =>
      rw [tree_of_alt isAlt, tree_of_alt isTail]
      rfl

theorem Normal.order_tree (normal : grammar.Normal limit)
    (orders : grammar.rewriting.Orders l r l' r') (closed : grammar.arena.Closed l)
    (closed' : grammar.arena.Closed r) (clean : ¬ grammar.arena.Patched limit l')
    (clean' : ¬ grammar.arena.Patched limit r') :
    Tree.order (grammar.arena.tree l) (grammar.arena.tree r) =
      (grammar.arena.tree l', grammar.arena.tree r') := by
  cases orders with
  | kept isHeight isHeight' lower =>
      rw [normal.height_eq closed isHeight clean,
        normal.height_eq closed' isHeight' clean'] at lower
      exact if_neg (Nat.not_lt_of_le lower)
  | swapped isHeight isHeight' lower =>
      rw [normal.height_eq closed isHeight clean',
        normal.height_eq closed' isHeight' clean] at lower
      exact if_pos lower

include sound distinguishes in
theorem join_tree (joins : grammar.Joins x left right l r y) (closed : grammar.arena.Closed l)
    (closed' : grammar.arena.Closed r) (resolved : grammar.arena.resolve l = l)
    (resolved' : grammar.arena.resolve r = r) (clean : ¬ grammar.arena.Patched limit l)
    (clean' : ¬ grammar.arena.Patched limit r) :
    grammar.arena.tree y = Tree.join (grammar.arena.tree l) (grammar.arena.tree r) := by
  have decided : ∀ {isEqual : Bool},
      grammar.tables.equalities.settled[Arena.unorderedPair l r]? = some isEqual →
      (grammar.arena.tree l = grammar.arena.tree r ↔ isEqual = true) := fun found =>
    tree_eq_iff sound distinguishes closed closed' resolved resolved' found clean clean'
  have isNil := tree_eq_nil_iff closed
  have isNil' := tree_eq_nil_iff closed'
  unfold Tree.join
  cases joins with
  | same isEqual => rw [if_pos (.inl ((decided isEqual).mpr rfl))]
  | altNil _ nil => rw [if_pos (.inr (isNil'.mpr nil))]
  | nilAlt distinct known nil =>
      rw [if_neg, if_pos (isNil.mpr nil)]
      rintro (same | nil)
      · cases (decided distinct).mp same
      · exact known (isNil'.mp nil)
  | alt distinct known known' isAlt _ _ =>
      rw [if_neg, if_neg fun nil => known' (isNil.mp nil), tree_of_alt isAlt]
      rintro (same | nil)
      · cases (decided distinct).mp same
      · exact known (isNil'.mp nil)

theorem Tells.clean (tells : grammar.Tells o s) (normal : grammar.Normal limit)
    (closed : grammar.arena.Closed o) (clean : ¬ grammar.arena.Patched limit o) :
    ¬ grammar.arena.Patched limit s :=
  fun patched => clean ((normal.entry tells.told closed).clean patched)

theorem Arranges.not_patched (arranges : grammar.Arranges left right l r)
    (clean : ¬ grammar.arena.Patched limit left) (clean' : ¬ grammar.arena.Patched limit right) :
    ¬ grammar.arena.Patched limit l ∧ ¬ grammar.arena.Patched limit r :=
  ⟨fun patched => (arranges.clean (.inl patched)).elim clean clean',
    fun patched => (arranges.clean (.inr patched)).elim clean clean'⟩

include normal sound distinguishes in
/-- A simplified union has the tree that a round makes of the trees of its operands. -/
theorem tree_united (arranges : grammar.Arranges left right l r)
    (joins : grammar.Joins x o s l r y) (closed : grammar.arena.Closed left)
    (closed' : grammar.arena.Closed right) (clean : ¬ grammar.arena.Patched limit left)
    (clean' : ¬ grammar.arena.Patched limit right) :
    grammar.arena.tree y = Tree.unite (grammar.arena.tree left) (grammar.arena.tree right) := by
  obtain ⟨isClosed, isClosed'⟩ := arranges.closed closed closed'
  obtain ⟨isClean, isClean'⟩ := arranges.not_patched clean clean'
  have joined := join_tree sound distinguishes joins isClosed isClosed' arranges.resolved.1
    arranges.resolved.2 isClean isClean'
  obtain ⟨l₀, r₀, turns, orders⟩ := arranges.turned
  obtain ⟨closed₀, closed₀'⟩ := closed_of_turns turns closed closed'
  simp only [Tree.unite, turn_tree turns closed,
    normal.order_tree orders closed₀ closed₀' isClean isClean', joined]

/-- The simplified operands have the trees that a round makes of those of the operands. -/
theorem map_tree (related : (grammar.arena.view x).Related grammar.Tells e)
    (each : ∀ o ∈ (grammar.arena.view x).operands, ∀ s, grammar.Tells o s →
      grammar.arena.tree s = (grammar.arena.tree o).simplify) :
    e.map grammar.arena.tree =
      ((grammar.arena.view x).map grammar.arena.tree).map Tree.simplify := by
  rw [Expr.map_map]
  exact (Expr.Related.map_right.mpr (related.imp_of_mem each)).eq_map

include normal sound distinguishes in
/-- Where nothing was bound below since the tables know of it, the tree of a simplified form is what
a round makes of the tree. -/
theorem tree_simplified (told : grammar.SimplifiesTo x y) (closed : grammar.arena.Closed x)
    (clean : ¬ grammar.arena.Patched limit x) :
    grammar.arena.tree y = (grammar.arena.tree x).simplify := by
  induction bound : (grammar.arena.tree x).mass using Nat.strong_induction_on generalizing x y with
  | _ n inductionHypothesis =>
      subst bound
      have ofOperand : ∀ o ∈ (grammar.arena.view x).operands, ∀ s, grammar.SimplifiesTo o s →
          grammar.arena.Closed o ∧ ¬ grammar.arena.Patched limit o ∧
            grammar.arena.tree s = (grammar.arena.tree o).simplify := by
        intro o member s told
        have isClosed := (closed.of_mem_view member).1
        have isClean : ¬ grammar.arena.Patched limit o := fun patched =>
          clean (closed.patched_of_operand (closed.operands_view ▸ member) patched)
        exact ⟨isClosed, isClean, inductionHypothesis _
          (grammar.rewriting.mass_operand member) told isClosed isClean rfl⟩
      have sameMap : ∀ {e}, (grammar.arena.view x).Related grammar.Tells e → e.map grammar.arena.tree =
          ((grammar.arena.view x).map grammar.arena.tree).map Tree.simplify := fun related =>
        map_tree related fun o member s tells => (ofOperand o member s tells.told).2.2
      cases (normal.entry told closed).made with
      | never isRep =>
          have isEmpty := closed.wellFormed.closed_empty
          rw [closed.tree_eq_node, isRep, Tree.simplify_node (by simp [Expr.map]),
            isEmpty.tree_eq_node, isEmpty.view_of_expr closed.wellFormed.empty]
          rfl
      | contracts related contracts =>
          have other : ∀ left right,
              (grammar.arena.view x).map grammar.arena.tree ≠ .alt left right := by
            intro left right isAlt
            rw [sameMap related, isAlt] at contracts
            cases contracts
          rw [closed.tree_eq_node, Tree.simplify_node other, ← sameMap related, Tree.reduce,
            contracts]
          rfl
      | keeps single related contracts isView _ =>
          have isClosed := (normal.entry told closed).closed
          rw [isClosed.tree_eq_node, isView, closed.tree_eq_node, Tree.simplify_node ?other,
            ← sameMap related, Tree.reduce, contracts]
          · rfl
          · intro left right isAlt
            exact tree_ne_alt closed single left right
              (closed.tree_eq_node.trans (congrArg Tree.node isAlt))
      | @unites left right simpleLeft simpleRight l r _ isAlt tells tells' arranges joins =>
          obtain ⟨isClosed, isClean, isTree⟩ :=
            ofOperand left (by simp [isAlt, Expr.operands]) _ tells.told
          obtain ⟨isClosed', isClean', isTree'⟩ :=
            ofOperand right (by simp [isAlt, Expr.operands]) _ tells'.told
          rw [tree_of_alt isAlt, Tree.simplify_alt, ← isTree, ← isTree']
          exact tree_united normal sound distinguishes arranges joins tells.closed tells'.closed
            (tells.clean normal isClosed isClean) (tells'.clean normal isClosed' isClean')

include normal sound distinguishes in
/-- A union in order stays as it is. -/
theorem eq_of_ordered (isAlt : grammar.arena.view x = .alt left right)
    (ordered : Tree.Ordered (grammar.arena.tree left) (grammar.arena.tree right))
    (arranges : grammar.Arranges left right l r) (joins : grammar.Joins x left right l r y)
    (closed : grammar.arena.Closed left) (closed' : grammar.arena.Closed right)
    (clean : ¬ grammar.arena.Patched limit left) (clean' : ¬ grammar.arena.Patched limit right) :
    y = x := by
  obtain ⟨isClean, isClean'⟩ := arranges.not_patched clean clean'
  obtain ⟨isClosed, isClosed'⟩ := arranges.closed closed closed'
  have decided : ∀ {isEqual : Bool},
      grammar.tables.equalities.settled[Arena.unorderedPair l r]? = some isEqual →
      (grammar.arena.tree l = grammar.arena.tree r ↔ isEqual = true) := fun found =>
    tree_eq_iff sound distinguishes isClosed isClosed' arranges.resolved.1 arranges.resolved.2 found
      isClean isClean'
  obtain ⟨l₀, r₀, turns, orders⟩ := arranges.turned
  cases turns with
  | turned isUnion _ _ => exact absurd (tree_of_alt isUnion) (ordered.single _ _)
  | flat _ =>
      cases orders with
      | swapped isHeight isHeight' lower =>
          rw [normal.height_eq closed isHeight clean,
            normal.height_eq closed' isHeight' clean'] at lower
          exact absurd ordered.height_le (Nat.not_le_of_lt lower)
      | kept _ _ _ =>
          cases joins with
          | same isEqual => exact absurd ((decided isEqual).mpr rfl) ordered.distinct
          | altNil _ isNil =>
              exact absurd ((tree_eq_nil_iff closed').mpr isNil) ordered.right_ne_nil
          | nilAlt _ _ isNil =>
              exact absurd ((tree_eq_nil_iff closed).mpr isNil) ordered.left_ne_nil
          | alt _ _ _ _ _ unchanged => exact unchanged rfl rfl

include normal sound distinguishes in
/-- An expression that no rule applies to is its own simplified form. -/
theorem eq_of_irreducible (irreducible : (grammar.arena.tree x).Irreducible)
    (told : grammar.SimplifiesTo x y) (closed : grammar.arena.Closed x) (clean : ¬ grammar.arena.Patched limit x) : y = x := by
  induction bound : (grammar.arena.tree x).mass using Nat.strong_induction_on generalizing x y with
  | _ n inductionHypothesis =>
      subst bound
      rw [closed.tree_eq_node] at irreducible
      obtain - | ⟨free, below⟩ := irreducible
      have ofOperand : ∀ o ∈ (grammar.arena.view x).operands, ∀ s, grammar.SimplifiesTo o s →
          s = o ∧ ¬ grammar.arena.Patched limit o := by
        intro o member s told
        have isClean : ¬ grammar.arena.Patched limit o := fun patched =>
          clean (closed.patched_of_operand (closed.operands_view ▸ member) patched)
        refine ⟨inductionHypothesis _ (grammar.rewriting.mass_operand member) (below _ ?_) told
          (closed.of_mem_view member).1 isClean rfl, isClean⟩
        rw [Expr.operands_map]
        exact List.mem_map_of_mem member
      have sameView : ∀ {e}, (grammar.arena.view x).Related grammar.Tells e →
          e = grammar.arena.view x := fun related =>
        ((related.imp_of_mem fun o member s tells => (ofOperand o member s tells.told).1).eq_map).trans
          (Expr.map_id _)
      cases (normal.entry told closed).made with
      | never isRep =>
          rw [isRep] at free
          exact absurd (.never _) free
      | contracts related contracts =>
          rw [sameView related] at contracts
          refine absurd ((Tree.redex_iff fun left right isAlt => ?_).mpr ?_) free
          · rw [isAlt] at contracts
            cases contracts
          · rw [contracts]
            exact Option.some_ne_none _
      | keeps _ related _ _ unchanged => exact unchanged (sameView related)
      | @unites left right simpleLeft simpleRight l r _ isAlt tells tells' arranges joins =>
          obtain ⟨rfl, isClean⟩ := ofOperand left (by simp [isAlt, Expr.operands]) _ tells.told
          obtain ⟨rfl, isClean'⟩ := ofOperand right (by simp [isAlt, Expr.operands]) _ tells'.told
          rw [isAlt] at free
          exact eq_of_ordered normal sound distinguishes isAlt (Tree.not_redex_alt_iff.mp free)
            arranges
            joins tells.closed tells'.closed isClean isClean'

end Right

end Residual.Grammar
