import Residual.Proofs.Arena.Closed
import Residual.Proofs.Grammar.Analyses

/-!
# Heights

The heights of closed expressions that the table knows are right, unless they were found when a
link below was not bound yet.  In any case what was found later than the operands is consistent
with them: the height is greater than those of the operands.
-/

set_option autoImplicit false

namespace Residual

open Memo

namespace Arena

variable {arena before after : Arena} {limit : Nat} {id : ExprId} {h : Nat}
  {table base final : Table ExprId Nat} {Holds : ExprId → Nat → Prop}

/-- The heights of closed expressions are right where below the expression no link was bound that is
not among the first `limit` slots. -/
structure Measures (arena : Arena) (limit : Nat) (table : Table ExprId Nat) : Prop where
  inside : ∀ {id : ExprId} {h : Nat}, table.settled[id]? = some h → id.number < arena.size
  height_eq : ∀ {id : ExprId} {h : Nat}, table.settled[id]? = some h → arena.Closed id →
    h = (arena.tree id).height ∨ arena.Patched limit id
  positive : ∀ {id : ExprId} {h : Nat}, table.settled[id]? = some h → 0 < h

/-- If the height of an expression is known, then it is greater than those of its operands. -/
def Grades (arena : Arena) (table : Table ExprId Nat) (id : ExprId) : Prop :=
  ∀ h, table.settled[id]? = some h → ∀ o ∈ (arena.view id).operands,
    ∃ h', table.settled[o]? = some h' ∧ h' < h

theorem Measures.empty (arena : Arena) (limit : Nat) (strategy : Strategy) :
    arena.Measures limit (.empty strategy) :=
  ⟨by simp, by simp, by simp⟩

/-- Binding a late link makes an exception of everything that gets closed by it. -/
theorem Measures.grows (measures : before.Measures limit table) (growing : before.Grows after)
    (agree : Agree limit before after) (wellFormed : before.WellFormed)
    (wellFormed' : after.WellFormed) : after.Measures limit table where
  inside found := growing.lt_size (measures.inside found)
  positive := measures.positive
  height_eq {id h} found closed := by
    by_cases patched : after.Patched limit id
    · exact .inr patched
    · have unfolds := closed.unfolds.of_not_patched growing agree wellFormed
        (measures.inside found) patched
      have closed' := wellFormed.closed unfolds
      refine .inl ?_
      rw [closed'.tree_grows growing wellFormed']
      refine (measures.height_eq found closed').resolve_right fun patched' => ?_
      exact patched (patched'.grows growing)

/-- A height is answered from those of the operands. -/
theorem heights_of_answers (answers : (arena.heightEquation id).Answers Holds h) :
    ∃ heights, List.Forall₂ Holds (arena.operands id) heights ∧ h = heights.foldl max 0 + 1 := by
  unfold heightEquation at answers
  simp only [Reading.Answers.bind_iff, Reading.Answers.pure_iff] at answers
  obtain ⟨heights, answers, rfl⟩ := answers
  exact ⟨heights, answers.forall₂.imp fun _ _ => Reading.Answers.read_iff.mp, rfl⟩

theorem Closed.operands_view (closed : arena.Closed id) :
    (arena.view id).operands = arena.operands id := by
  rw [closed.view_eq, Expr.operands_map]
  rfl

theorem Closed.height_tree (closed : arena.Closed id) : (arena.tree id).height =
    ((arena.operands id).map fun o => (arena.tree o).height).foldl max 0 + 1 := by
  rw [Tree.height_eq, closed.tree_eq_node, Tree.root, Expr.operands_map, closed.operands_view,
    List.map_map]
  rfl

/-- What is bound below an operand is bound below the expression. -/
theorem Closed.patched_of_operand (closed : arena.Closed id) {o : ExprId}
    (member : o ∈ arena.operands id) (patched : arena.Patched limit o) :
    arena.Patched limit id := by
  obtain ⟨operand, isOperand, rfl⟩ := mem_operands_iff.mp member
  exact (patched.of_operand closed.wellFormed closed.stands isOperand).of_resolve closed.wellFormed

/-- The equations of the heights, as far as a table that was there before is right. -/
def heightSystem (arena : Arena) (wellFormed : arena.WellFormed) (base : Table ExprId Nat) :
    EquationSystem ExprId Nat where
  equation := arena.heightEquation
  bottom _ := 0
  keys := arena.ids
  Asks := arena.Child
  Bound id h := ∀ limit, arena.Measures limit base → arena.Closed id →
    h = (arena.tree id).height ∨ arena.Patched limit id
  asks id _ := (arena.heightEquation_asks id).mono fun _ child =>
    ⟨child, mem_ids.mpr (wellFormed.child_lt child)⟩
  bottom_bound id _ cycle _ _ closed :=
    absurd cycle (not_transGen_of_acc (wellFormed.grounded_resolve.mp closed.grounded))
  equation_bound id _ h answers limit measures closed := by
    obtain ⟨heights, told, rfl⟩ := heights_of_answers answers
    by_cases patched : arena.Patched limit id
    · exact .inr patched
    · refine .inl ?_
      have same : heights = (arena.operands id).map fun o => (arena.tree o).height := by
        rw [← List.forall₂_eq_eq_eq, List.forall₂_map_right_iff]
        refine (forall₂_mem told).flip.imp ?_
        rintro height o ⟨member, _, bound⟩
        have isOperand := closed.of_mem_view (closed.operands_view ▸ member)
        exact (bound limit measures isOperand.1).resolve_right fun patched' =>
          patched (closed.patched_of_operand member patched')
      rw [closed.height_tree, same]

/-- No evaluation settles the height that an expression has before it is evaluated. -/
theorem rising_positive (wellFormed : arena.WellFormed)
    (positive : ∀ {id : ExprId} {h : Nat}, base.settled[id]? = some h → 0 < h) :
    (arena.heightSystem wellFormed base).Rising base fun n _ h => 0 < n → 0 < h where
  zero _ _ positive := absurd positive (Nat.lt_irrefl 0)
  weaken above _ := above (Nat.succ_pos _)
  settled found _ _ := positive found
  step _ answers _ := by
    obtain ⟨_, _, rfl⟩ := heights_of_answers answers
    exact Nat.succ_pos _

/-- An evaluation adds heights to the table. -/
structure Heightens (arena : Arena) (base final : Table ExprId Nat) : Prop where
  idle : ∀ key : ExprId, final.pending[key]? = none
  lasts : base.Lasts final
  measures : ∀ limit, arena.Measures limit base → arena.Measures limit final
  grades : ∀ {id}, arena.Closed id → arena.Grades base id → arena.Grades final id

theorem Heightens.refl (idle : ∀ key : ExprId, base.pending[key]? = none) :
    arena.Heightens base base :=
  ⟨idle, .refl _, fun _ measures => measures, fun _ grades => grades⟩

theorem Heightens.of_settles (wellFormed : arena.WellFormed) {root : ExprId}
    (settles : (arena.heightSystem wellFormed base).Settles base root h final) :
    arena.Heightens base final where
  idle := settles.idle
  lasts _ _ := settles.kept
  measures limit measures :=
    { inside := fun found => by
        rcases settles.new found with wasThere | ⟨inKeys, _⟩
        · exact measures.inside wasThere
        · exact mem_ids.mp inKeys
      height_eq := fun found closed => by
        rcases settles.new found with wasThere | ⟨_, bound, _⟩
        · exact measures.height_eq wasThere closed
        · exact bound limit measures closed
      positive := fun found =>
        settles.approximates (rising_positive wellFormed measures.positive) found
          (Nat.succ_pos _) }
  grades {id} closed grades h found o member := by
    rcases settles.new found with wasThere | ⟨_, _, answers⟩
    · obtain ⟨h', found', lower⟩ := grades h wasThere o member
      exact ⟨h', settles.kept found', lower⟩
    · have acyclic : ¬ (arena.heightSystem wellFormed base).Cyclic id :=
        not_transGen_of_acc (wellFormed.grounded_resolve.mp closed.grounded)
      obtain ⟨heights, told, rfl⟩ := heights_of_answers (answers (.inr acyclic))
      rw [closed.operands_view] at member
      obtain ⟨h', isHeight, found'⟩ := exists_related_left told.flip o member
      refine ⟨h', found', Nat.lt_succ_of_le ?_⟩
      rw [List.foldl_max]
      exact le_max_of_le_right (List.le_max?_getD_of_mem isHeight)

end Arena

namespace Grammar

variable {grammar : Grammar} {id : ExprId}

/-- A height is answered by a settled value of the table. -/
theorem yields_computeHeight (wellFormed : grammar.arena.WellFormed)
    (idle : ∀ key : ExprId, grammar.tables.heights.pending[key]? = none)
    (inside : id.number < grammar.arena.size) :
    (computeHeight id).Yields grammar fun value after =>
      (∃ heights, after.tables = { grammar.tables with heights } ∧
        grammar.arena.Heightens grammar.tables.heights heights ∧
        heights.settled[grammar.arena.resolve id]? = some value) ∧
      after.config = grammar.config ∧ after.arena = grammar.arena ∧ after.fault = grammar.fault := by
  unfold computeHeight
  simp only [Eval.yields_bind, Eval.yields_get]
  let system := grammar.arena.heightSystem wellFormed grammar.tables.heights
  have isStatic : system.IsStatic := fun id _ _ child => grammar.arena.heightEquation_needs id child
  refine (yields_analysis_static heights_isField (fun _ _ => rfl) rfl isStatic
    (fun found limit measures closed => measures.height_eq found closed) idle
    (Arena.mem_ids.mpr (wellFormed.resolve_lt inside))
    (Nat.lt_succ_of_le grammar.arena.card_ids_le)).mono ?_
  rintro value after ⟨⟨config, arena, fault, f, tables⟩, settles⟩
  rw [tables] at settles
  exact ⟨⟨_, tables, .of_settles wellFormed settles, settles.answered⟩, config, arena, fault⟩

end Grammar

end Residual
