import Residual.Arena.Search
import Residual.Proofs.Arena.Meaning

/-!
# Searching for unbound links

The depth first search lists only slots that can be reached, so that it finds no unbound link
below an expression that is defined.
-/

set_option autoImplicit false

namespace Residual.Arena

variable {arena : Arena} {root : ExprId}

theorem mem_pushed {visited : Std.HashSet ExprId} {id next : ExprId} :
    next ∈ arena.pushed visited id ↔
      next ∈ arena.successors id ∧ (arena.isLink id = true ∨ next ∉ visited) := by
  unfold pushed
  split
  case isTrue isLink => simp [isLink]
  case isFalse noLink => simp [noLink]

/-- A search stays within what is closed under successors. -/
theorem forall_mem_visit {Within : ExprId → Prop}
    (closed : ∀ id, Within id → ∀ next ∈ arena.successors id, Within next) (steps : Nat)
    (stack : List ExprId) (visited : Std.HashSet ExprId) (order : Array ExprId)
    (stackWithin : ∀ id ∈ stack, Within id) (orderWithin : ∀ id ∈ order, Within id) :
    ∀ id ∈ arena.visit steps stack visited order, Within id := by
  induction steps generalizing stack visited order with
  | zero => simpa [visit] using orderWithin
  | succ steps inductionHypothesis =>
      cases stack with
      | nil => simpa [visit] using orderWithin
      | cons top stack =>
          have here := stackWithin top (by simp)
          have below : ∀ id ∈ stack, Within id := fun id member => stackWithin id (by simp [member])
          rw [visit]
          split
          · exact inductionHypothesis stack visited order below orderWithin
          · refine inductionHypothesis _ _ _ (fun id member => ?_) fun id member => ?_
            · rcases List.mem_append.mp member with isNext | member
              · exact closed top here id (mem_pushed.mp isNext).1
              · exact below id member
            · rcases Array.mem_push.mp member with member | rfl
              · exact orderWithin id member
              · exact here

/-- What a search has listed and what it has still to visit: the successors of listed slots are
listed or on the stack. -/
structure Searching (arena : Arena) (stack : List ExprId) (visited : Std.HashSet ExprId)
    (order : Array ExprId) : Prop where
  mem_iff : ∀ id, id ∈ order ↔ id ∈ visited
  successors : ∀ id ∈ order, ∀ next ∈ arena.successors id, next ∈ order ∨ next ∈ stack

theorem length_successors_le (arena : Arena) (id : ExprId) : (arena.successors id).length ≤ 2 := by
  unfold Arena.successors
  split
  · dsimp only
    split <;> simp
  · cases arena.get id <;> simp [Expr.operands]

theorem successors_of_size_le {id : ExprId} (outside : arena.size ≤ id.number) :
    arena.successors id = [] := by
  have isNone : arena.slot? id = none := Array.getElem?_eq_none outside
  have isFinal : arena.resolve id = id := resolve_of_final (by simp [isNone])
  simp [Arena.successors, isLink, Arena.get, isFinal, isNone, Expr.operands]

/-- The slots that a search has not visited. -/
def unvisited (arena : Arena) (visited : Std.HashSet ExprId) : Finset Nat :=
  (Finset.range arena.size).filter fun number => (⟨number⟩ : ExprId) ∉ visited

theorem length_pushed_le (visited : Std.HashSet ExprId) (id : ExprId) :
    (arena.pushed visited id).length ≤ (arena.successors id).length := by
  unfold pushed
  split
  · exact Nat.le_refl _
  · exact List.length_filter_le _ _

/-- Every visit makes the stack shorter or leaves fewer slots to be visited. -/
theorem unvisited_insert {top : ExprId} {visited : Std.HashSet ExprId} (isNew : top ∉ visited) :
    (arena.pushed (visited.insert top) top).length +
      2 * (arena.unvisited (visited.insert top)).card ≤ 2 * (arena.unvisited visited).card := by
  have pushed_le := arena.length_pushed_le (visited.insert top) top
  have sub : arena.unvisited (visited.insert top) ⊆ (arena.unvisited visited).erase top.number := by
    intro number member
    simp only [unvisited, Finset.mem_filter, Std.HashSet.mem_insert, beq_iff_eq, not_or] at member
    obtain ⟨inRange, distinct, fresh⟩ := member
    refine Finset.mem_erase.mpr ⟨?_, Finset.mem_filter.mpr ⟨inRange, fresh⟩⟩
    rintro rfl
    exact distinct rfl
  have card_le := Finset.card_le_card sub
  by_cases inside : top.number < arena.size
  · have member : top.number ∈ arena.unvisited visited :=
      Finset.mem_filter.mpr ⟨Finset.mem_range.mpr inside, isNew⟩
    have card_erase := Finset.card_erase_add_one member
    have length_le := arena.length_successors_le top
    omega
  · have erase_le := Finset.card_erase_le (s := arena.unvisited visited) (a := top.number)
    rw [successors_of_size_le (Nat.le_of_not_lt inside), List.length_nil] at pushed_le
    omega

/-- The steps of the search are enough for every expression. -/
theorem enough_steps (arena : Arena) (root : ExprId) :
    [root].length + 2 * (arena.unvisited ∅).card ≤ 2 * arena.size + 1 := by
  have card_le := Finset.card_filter_le (Finset.range arena.size) fun number =>
    (⟨number⟩ : ExprId) ∉ (∅ : Std.HashSet ExprId)
  rw [Finset.card_range] at card_le
  rw [List.length_singleton, unvisited]
  omega

/-- A search that has steps enough lists everything that can be reached from its stack. -/
theorem visit_closed (steps : Nat) (stack : List ExprId) (visited : Std.HashSet ExprId)
    (order : Array ExprId) (searching : arena.Searching stack visited order)
    (enough : stack.length + 2 * (arena.unvisited visited).card ≤ steps) :
    (∀ id, id ∈ order ∨ id ∈ stack → id ∈ arena.visit steps stack visited order) ∧
      ∀ id ∈ arena.visit steps stack visited order, ∀ next ∈ arena.successors id,
        next ∈ arena.visit steps stack visited order := by
  induction steps generalizing stack visited order with
  | zero =>
      have noStack : stack = [] := List.eq_nil_of_length_eq_zero (by omega)
      subst noStack
      simpa [visit] using searching.successors
  | succ steps inductionHypothesis =>
      cases stack with
      | nil => simpa [visit] using searching.successors
      | cons top stack =>
          rw [List.length_cons] at enough
          rw [visit]
          split
          case isTrue isVisited =>
            have listed : top ∈ order := (searching.mem_iff top).mpr (by simpa using isVisited)
            obtain ⟨keeps, closed⟩ := inductionHypothesis stack visited order
              ⟨searching.mem_iff, by grind [searching.successors]⟩ (by omega)
            exact ⟨by grind, closed⟩
          case isFalse isNew =>
            have fewer := arena.unvisited_insert (by simpa using isNew)
            obtain ⟨keeps, closed⟩ := inductionHypothesis
              (arena.pushed (visited.insert top) top ++ stack) (visited.insert top) (order.push top)
              ⟨by grind [searching.mem_iff],
                by grind [searching.successors, searching.mem_iff, mem_pushed]⟩
              (by rw [List.length_append]; omega)
            exact ⟨by grind, closed⟩

namespace WellFormed

variable (wellFormed : arena.WellFormed)

include wellFormed

theorem reaches_successor {id next : ExprId} (reaches : arena.Reaches root (arena.resolve id))
    (isNext : next ∈ arena.successors id) : arena.Reaches root (arena.resolve next) := by
  unfold successors at isNext
  split at isNext
  · dsimp only at isNext
    split at isNext
    · cases isNext
    · rw [List.mem_singleton.mp isNext, wellFormed.resolve_resolve]
      exact reaches
  · refine reaches.tail ?_
    unfold Child
    rw [wellFormed.operands_resolve, mem_operands_iff]
    exact ⟨next, isNext, rfl⟩

theorem firstUnbound?_eq_none (defined : arena.Defined root) :
    arena.firstUnbound? root = none := by
  refine List.find?_eq_none.mpr fun id member => ?_
  have reaches := forall_mem_visit (fun _ reaches _ => wellFormed.reaches_successor reaches)
    (2 * arena.size + 1) [root] ∅ #[] (by simpa using arena.reaches_self root) (by simp) id
    (Array.mem_toList_iff.mp member)
  intro unbound
  have isFinal : arena.resolve id = id :=
    resolve_of_final (by simp [isUnbound_iff.mp unbound])
  rw [isFinal] at reaches
  simp [defined id reaches] at unbound

/-- The search finds an unbound link unless the expression is defined. -/
theorem defined_of_firstUnbound? (notFound : arena.firstUnbound? root = none) :
    arena.Defined root := by
  have searching : arena.Searching [root] ∅ #[] := ⟨by simp, by simp⟩
  obtain ⟨listed, closed⟩ := visit_closed _ [root] ∅ #[] searching (arena.enough_steps root)
  have resolved : ∀ {id}, id ∈ arena.visit (2 * arena.size + 1) [root] ∅ #[] →
      arena.resolve id ∈ arena.visit (2 * arena.size + 1) [root] ∅ #[] := by
    intro id member
    by_cases same : arena.resolve id = id
    · rwa [same]
    · have isLink : arena.isLink id = true := by
        by_contra noLink
        refine same (resolve_of_final fun target found => noLink ?_)
        simp [Arena.isLink, found]
      refine closed id member _ ?_
      simp [Arena.successors, isLink, same]
  have reached : ∀ {id}, arena.Reaches root id →
      id ∈ arena.visit (2 * arena.size + 1) [root] ∅ #[] := by
    intro id reaches
    induction reaches with
    | refl => exact resolved (listed root (.inr List.mem_cons_self))
    | @tail above _ reaches child inductionHypothesis =>
        obtain ⟨operand, member, rfl⟩ := mem_operands_iff.mp child
        have isFinal := wellFormed.resolve_of_reaches reaches
        have noLink : arena.isLink above = false := by
          by_contra isLink
          simp only [Arena.isLink, Bool.not_eq_false] at isLink
          simp only [Arena.get, isFinal] at member
          split at isLink <;> simp_all [Expr.operands]
        refine resolved (closed _ inductionHypothesis operand ?_)
        simpa [Arena.successors, noLink] using member
  intro id reaches
  have bound := List.find?_eq_none.mp notFound id (Array.mem_toList_iff.mpr (reached reaches))
  simpa using bound

end WellFormed

/-! ## All slots of an arena -/

theorem slot?_of_size_le {id : ExprId} (outside : arena.size ≤ id.number) :
    arena.slot? id = none :=
  Array.getElem?_eq_none outside

/-- Without unbound links every expression is defined. -/
theorem defined_of_forall (bound : ∀ number < arena.size, arena.isUnbound ⟨number⟩ = false) :
    arena.Defined root := by
  intro id _
  by_cases inside : id.number < arena.size
  · exact bound id.number inside
  · rw [isUnbound, slot?_of_size_le (Nat.le_of_not_lt inside)]

/-- Where all operands come before what they are operands of, there are no cycles. -/
theorem acyclic_of_forall (falls : ∀ number < arena.size, ∀ o ∈ arena.operands ⟨number⟩,
    o.number < number) : arena.Acyclic root := by
  have child_lt : ∀ {x y : ExprId}, arena.Child x y → y.number < x.number := by
    intro x y child
    by_cases inside : x.number < arena.size
    · exact falls x.number inside y child
    · have outside := slot?_of_size_le (Nat.le_of_not_lt inside)
      have isFinal : arena.resolve x = x := resolve_of_final (by simp [outside])
      unfold Child operands Arena.get at child
      rw [isFinal, outside] at child
      cases child
  have below_lt : ∀ {x y : ExprId}, Relation.TransGen arena.Child x y → y.number < x.number := by
    intro x y below
    induction below with
    | single child => exact child_lt child
    | tail _ child inductionHypothesis => exact (child_lt child).trans inductionHypothesis
  exact fun id _ cycle => Nat.lt_irrefl _ (below_lt cycle)

/-- What holds of all operators of an arena holds of those that can be reached. -/
theorem throughout_of_forall {kind : Expr Unit → Prop} (onNil : kind .nil)
    (all : ∀ number < arena.size, kind (arena.get ⟨number⟩).shape) :
    arena.Throughout root kind := by
  intro id _
  by_cases inside : id.number < arena.size
  · exact all id.number inside
  · have outside := slot?_of_size_le (Nat.le_of_not_lt inside)
    have isFinal : arena.resolve id = id := resolve_of_final (by simp [outside])
    rw [Arena.get, isFinal, outside]
    exact onNil

/-- What holds of the operators of a list that no operand leads out of. -/
theorem throughout_of_closed {kind : Expr Unit → Prop} {within : List ExprId}
    (start : arena.resolve root ∈ within)
    (closed : ∀ above ∈ within, ∀ o ∈ arena.operands above, o ∈ within)
    (all : ∀ id ∈ within, kind (arena.get id).shape) : arena.Throughout root kind := by
  intro id reaches
  apply all id
  induction reaches with
  | refl => exact start
  | tail _ child inductionHypothesis => exact closed _ inductionHypothesis _ child

end Residual.Arena
