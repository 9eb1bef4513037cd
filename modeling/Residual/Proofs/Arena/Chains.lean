import Mathlib.Data.Finset.Card
import Mathlib.Data.Finset.Range
import Residual.Arena.Basic

/-!
# Chains of links

In a well formed arena every chain of links ends, and `resolve` finds its end: the links of a
chain are distinct slots, so the slots of the arena are fuel enough.

`Stands` relates an expression number to the expression at the end of its chain.
-/

set_option autoImplicit false

namespace Residual.Arena

variable {arena : Arena} {id target last : ExprId} {e : Expr ExprId}

/-- The chain of links from a slot ends at `last` after `steps` links. -/
inductive Leads (arena : Arena) : (steps : Nat) → ExprId → ExprId → Prop where
  | stop {id : ExprId} :
      (∀ target, arena.slot? id ≠ some (.link (some target))) → Leads arena 0 id id
  | link {steps : Nat} {id target last : ExprId} :
      arena.slot? id = some (.link (some target)) → Leads arena steps target last →
      Leads arena (steps + 1) id last

/-- The expression that a number stands for is known, and it is `e`. -/
def Stands (arena : Arena) (id : ExprId) (e : Expr ExprId) : Prop :=
  arena.slot? (arena.resolve id) = some (.expr e)

/-- The shared expressions are in their places, slots refer to slots, and chains of links end. -/
structure WellFormed (arena : Arena) : Prop where
  any : arena.slot? .any = some (.expr .any)
  empty : arena.slot? .empty = some (.expr .empty)
  nil : arena.slot? .nil = some (.expr .nil)
  operand_lt : ∀ {id e}, arena.slot? id = some (.expr e) →
    ∀ operand ∈ e.operands, operand.number < arena.size
  target_lt : ∀ {id target}, arena.slot? id = some (.link (some target)) →
    target.number < arena.size
  ends : ∀ id, ∃ steps last, arena.Leads steps id last

theorem lt_size_of_slot? {slot : Slot} (found : arena.slot? id = some slot) :
    id.number < arena.size :=
  (Array.getElem?_eq_some_iff.mp found).1

theorem exists_slot? (inside : id.number < arena.size) : ∃ slot, arena.slot? id = some slot :=
  ⟨_, Array.getElem?_eq_getElem inside⟩

theorem isUnbound_iff : arena.isUnbound id = true ↔ arena.slot? id = some (.link none) := by
  unfold isUnbound
  split <;> simp_all

namespace Leads

variable {steps steps' : Nat} {last' : ExprId}

theorem unique (chain : arena.Leads steps id last) (chain' : arena.Leads steps' id last') :
    steps = steps' ∧ last = last' := by
  induction chain generalizing steps' with
  | stop final =>
      cases chain' with
      | stop _ => exact ⟨rfl, rfl⟩
      | link found _ => exact absurd found (final _)
  | link found _ inductionHypothesis =>
      cases chain' with
      | stop final => exact absurd found (final _)
      | link found' rest' =>
          rw [found] at found'
          cases found'
          obtain ⟨rfl, rfl⟩ := inductionHypothesis rest'
          exact ⟨rfl, rfl⟩

theorem last_final (chain : arena.Leads steps id last) :
    ∀ target, arena.slot? last ≠ some (.link (some target)) := by
  induction chain with
  | stop final => exact final
  | link _ _ inductionHypothesis => exact inductionHypothesis

theorem follow (chain : arena.Leads steps id last) {fuel : Nat} (enough : steps ≤ fuel) :
    arena.follow fuel id = last := by
  induction chain generalizing fuel with
  | @stop id final =>
      cases fuel with
      | zero => rfl
      | succ fuel =>
          rw [Arena.follow]
          split
          · rename_i target found
            exact absurd found (final target)
          · rfl
  | @link steps id target last found _ inductionHypothesis =>
      obtain ⟨fuel, rfl⟩ : ∃ rest, fuel = rest + 1 := ⟨fuel - 1, by omega⟩
      rw [Arena.follow, found]
      exact inductionHypothesis (by omega)

/-- The links of a chain are distinct slots, told apart by their distance from its end. -/
theorem exists_links (chain : arena.Leads steps id last) :
    ∃ links : Finset Nat, links.card = steps ∧
      ∀ number ∈ links, number < arena.size ∧
        ∃ distance, distance ≤ steps ∧ arena.Leads distance ⟨number⟩ last := by
  induction chain with
  | stop _ => exact ⟨∅, rfl, by simp⟩
  | @link steps id target last found rest inductionHypothesis =>
      obtain ⟨links, size, inside⟩ := inductionHypothesis
      have whole : arena.Leads (steps + 1) id last := .link found rest
      have fresh : id.number ∉ links := by
        intro member
        obtain ⟨_, distance, near, again⟩ := inside id.number member
        have := (whole.unique again).1
        omega
      refine ⟨insert id.number links, by rw [Finset.card_insert_of_notMem fresh, size], ?_⟩
      intro number member
      rcases Finset.mem_insert.mp member with rfl | member
      · exact ⟨lt_size_of_slot? found, steps + 1, le_refl _, whole⟩
      · obtain ⟨bounded, distance, near, again⟩ := inside number member
        exact ⟨bounded, distance, by omega, again⟩

theorem steps_le_size (chain : arena.Leads steps id last) : steps ≤ arena.size := by
  obtain ⟨links, size, inside⟩ := chain.exists_links
  have bounded : links ⊆ Finset.range arena.size := by
    intro number member
    exact Finset.mem_range.mpr (inside number member).1
  simpa [size] using Finset.card_le_card bounded

theorem resolve_eq (chain : arena.Leads steps id last) : arena.resolve id = last :=
  chain.follow chain.steps_le_size

end Leads

theorem resolve_of_final (final : ∀ target, arena.slot? id ≠ some (.link (some target))) :
    arena.resolve id = id :=
  (Leads.stop final).resolve_eq

theorem resolve_of_expr (found : arena.slot? id = some (.expr e)) : arena.resolve id = id :=
  resolve_of_final (by simp [found])

theorem get_of_stands (stands : arena.Stands id e) : arena.get id = e := by
  unfold Arena.get
  rw [show arena.slot? (arena.resolve id) = some (.expr e) from stands]

theorem stands_of_expr (found : arena.slot? id = some (.expr e)) : arena.Stands id e := by
  rw [Stands, resolve_of_expr found]
  exact found

theorem Stands.unique {e' : Expr ExprId} (stands : arena.Stands id e)
    (stands' : arena.Stands id e') : e = e' := by
  rw [← get_of_stands stands, ← get_of_stands stands']

theorem get_eq_nil_of_unbound (unbound : arena.slot? (arena.resolve id) = some (.link none)) :
    arena.get id = .nil := by
  unfold Arena.get
  rw [unbound]

namespace WellFormed

variable (wellFormed : arena.WellFormed)

include wellFormed

theorem resolve_link (found : arena.slot? id = some (.link (some target))) :
    arena.resolve id = arena.resolve target := by
  obtain ⟨steps, last, chain⟩ := wellFormed.ends target
  rw [(Leads.link found chain).resolve_eq, chain.resolve_eq]

theorem resolve_final (id target : ExprId) :
    arena.slot? (arena.resolve id) ≠ some (.link (some target)) := by
  obtain ⟨steps, last, chain⟩ := wellFormed.ends id
  rw [chain.resolve_eq]
  exact chain.last_final target

@[simp]
theorem resolve_resolve (id : ExprId) :
    arena.resolve (arena.resolve id) = arena.resolve id :=
  resolve_of_final (wellFormed.resolve_final id)

theorem leads_resolve (id : ExprId) : ∃ steps, arena.Leads steps id (arena.resolve id) := by
  obtain ⟨steps, last, chain⟩ := wellFormed.ends id
  exact ⟨steps, by rwa [chain.resolve_eq]⟩

theorem resolve_lt (inside : id.number < arena.size) :
    (arena.resolve id).number < arena.size := by
  obtain ⟨steps, chain⟩ := wellFormed.leads_resolve id
  generalize arena.resolve id = last at chain
  induction chain with
  | stop _ => exact inside
  | link found _ inductionHypothesis =>
      exact inductionHypothesis (wellFormed.target_lt found)

/-- A number in the arena stands for an expression or for an unbound link. -/
theorem stands_or_unbound (inside : id.number < arena.size) :
    (∃ e, arena.Stands id e) ∨ arena.slot? (arena.resolve id) = some (.link none) := by
  obtain ⟨slot, found⟩ := exists_slot? (wellFormed.resolve_lt inside)
  cases slot with
  | expr e => exact .inl ⟨e, found⟩
  | link target =>
      cases target with
      | none => exact .inr found
      | some target => exact absurd found (wellFormed.resolve_final id target)

@[simp]
theorem get_resolve (id : ExprId) : arena.get (arena.resolve id) = arena.get id := by
  unfold Arena.get
  rw [wellFormed.resolve_resolve]

theorem get?_eq_some (inside : id.number < arena.size) :
    arena.get? id = some e ↔ arena.Stands id e := by
  unfold get?
  rcases wellFormed.stands_or_unbound inside with ⟨e', stands⟩ | unbound
  · have bound : arena.isUnbound (arena.resolve id) = false := by
      rw [Bool.eq_false_iff, ne_eq, isUnbound_iff, show arena.slot? (arena.resolve id) = _ from stands]
      simp
    rw [bound, if_neg Bool.false_ne_true, get_of_stands stands, Option.some_inj]
    exact ⟨fun same => same ▸ stands, stands.unique⟩
  · rw [isUnbound_iff.mpr unbound, if_pos rfl, Stands, unbound]
    simp

theorem resolve_empty : arena.resolve .empty = .empty :=
  resolve_of_expr wellFormed.empty

theorem resolve_nil : arena.resolve .nil = .nil :=
  resolve_of_expr wellFormed.nil

theorem stands_empty : arena.Stands .empty .empty :=
  stands_of_expr wellFormed.empty

theorem stands_nil : arena.Stands .nil .nil :=
  stands_of_expr wellFormed.nil

theorem nil_lt_size : ExprId.nil.number < arena.size :=
  lt_size_of_slot? wellFormed.nil

theorem empty_lt_size : ExprId.empty.number < arena.size :=
  lt_size_of_slot? wellFormed.empty

/-- Operands of what a number stands for are slots of the arena. -/
theorem operand_lt_of_get {operand : ExprId} (member : operand ∈ (arena.get id).operands) :
    operand.number < arena.size := by
  unfold Arena.get at member
  split at member
  · rename_i e found
    exact wellFormed.operand_lt found operand member
  · simp [Expr.operands] at member

end WellFormed

theorem slot?_initial {slot : Slot} (found : initial.slot? id = some slot) :
    slot = .expr .any ∨ slot = .expr .empty ∨ slot = .expr .nil := by
  have inside : id.number < 3 := lt_size_of_slot? found
  obtain ⟨number⟩ := id
  match number, found, inside with
  | 0, found, _ => exact .inl (Option.some.inj found).symm
  | 1, found, _ => exact .inr (.inl (Option.some.inj found).symm)
  | 2, found, _ => exact .inr (.inr (Option.some.inj found).symm)

theorem wellFormed_initial : initial.WellFormed where
  any := rfl
  empty := rfl
  nil := rfl
  operand_lt found := by
    rcases slot?_initial found with same | same | same <;> cases same <;> exact nofun
  target_lt found := by
    rcases slot?_initial found with same | same | same <;> cases same
  ends id := ⟨0, id, .stop fun target found => by
    rcases slot?_initial found with same | same | same <;> cases same⟩

end Residual.Arena
