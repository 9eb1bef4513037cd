import Residual.Proofs.Arena.Search

/-!
# Depth first order

`Traverses` is the recursive preorder: a slot that was not visited before is listed, and then its
successors are traversed one after the other, before what comes after the slot.  The search has a
stack instead of the recursion.  What is on the stack is what is left to be traversed, but for
operands that were visited when they would have been pushed, and those are passed over by the
recursion too.
-/

set_option autoImplicit false

namespace Residual.Arena

variable {arena : Arena} {root id : ExprId}

/-- The recursive preorder: after these slots were visited, the slots in the first list are traversed
from left to right, and then these slots are visited. -/
inductive Traverses (arena : Arena) : (todo visited after : List ExprId) → Prop where
  | nil (visited : List ExprId) : Traverses arena [] visited visited
  | again {id : ExprId} {rest visited after : List ExprId} (seen : id ∈ visited)
      (later : Traverses arena rest visited after) : Traverses arena (id :: rest) visited after
  | visit {id : ExprId} {rest visited between after : List ExprId} (isNew : id ∉ visited)
      (below : Traverses arena (arena.successors id) (visited ++ [id]) between)
      (later : Traverses arena rest between after) : Traverses arena (id :: rest) visited after

/-- The slots that can be reached from a slot, itself included, in recursive preorder. -/
def Preorder (arena : Arena) (root : ExprId) (order : List ExprId) : Prop :=
  arena.Traverses [root] [] order

/-- One slot leads to another one through links and operands. -/
def Links (arena : Arena) (root id : ExprId) : Prop :=
  Relation.ReflTransGen (fun above below => below ∈ arena.successors above) root id

namespace Traverses

variable {todo rest visited between after after' : List ExprId}

theorem unique (first : arena.Traverses todo visited after)
    (second : arena.Traverses todo visited after') : after = after' := by
  induction first generalizing after' with
  | nil visited =>
      cases second
      rfl
  | again seen _ later_unique =>
      cases second with
      | again _ later => exact later_unique later
      | visit isNew => exact absurd seen isNew
  | visit isNew _ _ below_unique later_unique =>
      cases second with
      | again seen => exact absurd seen isNew
      | visit _ below later =>
          cases below_unique below
          exact later_unique later

/-- What was visited stays at the front. -/
theorem isPrefix (traverses : arena.Traverses todo visited after) : visited <+: after := by
  induction traverses with
  | nil visited => exact List.prefix_rfl
  | again _ _ later_prefix => exact later_prefix
  | visit _ _ _ below_prefix later_prefix =>
      exact ((List.prefix_append _ _).trans below_prefix).trans later_prefix

theorem nodup (traverses : arena.Traverses todo visited after) (distinct : visited.Nodup) :
    after.Nodup := by
  induction traverses with
  | nil visited => exact distinct
  | again _ _ later_nodup => exact later_nodup distinct
  | visit isNew _ _ below_nodup later_nodup =>
      apply later_nodup
      apply below_nodup
      exact List.nodup_append.mpr ⟨distinct, List.nodup_singleton _, by grind⟩

theorem append_iff : arena.Traverses (todo ++ rest) visited after ↔
    ∃ between, arena.Traverses todo visited between ∧ arena.Traverses rest between after := by
  constructor
  · intro traverses
    generalize isList : todo ++ rest = list at traverses
    induction traverses generalizing todo with
    | nil visited =>
        obtain ⟨rfl, rfl⟩ := List.append_eq_nil_iff.mp isList
        exact ⟨visited, .nil visited, .nil visited⟩
    | again seen later later_split =>
        cases todo with
        | nil =>
            obtain rfl : rest = _ := isList
            exact ⟨_, .nil _, .again seen later⟩
        | cons first todo =>
            cases isList
            obtain ⟨between, first, second⟩ := later_split rfl
            exact ⟨between, .again seen first, second⟩
    | visit isNew below later _ later_split =>
        cases todo with
        | nil =>
            obtain rfl : rest = _ := isList
            exact ⟨_, .nil _, .visit isNew below later⟩
        | cons first todo =>
            cases isList
            obtain ⟨between, first, second⟩ := later_split rfl
            exact ⟨between, .visit isNew below first, second⟩
  · intro split
    obtain ⟨between, first, second⟩ := split
    induction first with
    | nil visited => exact second
    | again seen _ later_append => exact .again seen (later_append second)
    | visit isNew below _ _ later_append => exact .visit isNew below (later_append second)

/-- Slots that were visited can be left out. -/
theorem of_filter {keep : ExprId → Bool} (dropped : ∀ id, keep id = false → id ∈ visited)
    (traverses : arena.Traverses (todo.filter keep) visited after) :
    arena.Traverses todo visited after := by
  induction todo generalizing visited with
  | nil => exact traverses
  | cons id todo inductionHypothesis =>
      cases kept : keep id with
      | false =>
          rw [List.filter_cons, if_neg (by simp [kept])] at traverses
          exact .again (dropped id kept) (inductionHypothesis dropped traverses)
      | true =>
          rw [List.filter_cons, if_pos kept] at traverses
          cases traverses with
          | again seen later => exact .again seen (inductionHypothesis dropped later)
          | visit isNew below later =>
              refine .visit isNew below (inductionHypothesis (fun other isDropped => ?_) later)
              exact below.isPrefix.subset (List.mem_append_left _ (dropped other isDropped))

end Traverses

/-- What is pushed is traversed as all successors are. -/
theorem traverses_of_pushed {visited : Std.HashSet ExprId} {rest listed after : List ExprId}
    (mem_iff : ∀ id, id ∈ listed ↔ id ∈ visited)
    (traverses : arena.Traverses (arena.pushed visited id ++ rest) listed after) :
    arena.Traverses (arena.successors id ++ rest) listed after := by
  unfold pushed at traverses
  split at traverses
  · exact traverses
  · obtain ⟨between, first, second⟩ := Traverses.append_iff.mp traverses
    refine Traverses.append_iff.mpr ⟨between, first.of_filter ?_, second⟩
    intro other isDropped
    apply (mem_iff other).mpr
    simpa using isDropped

/-- A search with steps enough traverses its stack. -/
theorem traverses_visit (steps : Nat) (stack : List ExprId) (visited : Std.HashSet ExprId)
    (order : Array ExprId) (mem_iff : ∀ id, id ∈ order.toList ↔ id ∈ visited)
    (enough : stack.length + 2 * (arena.unvisited visited).card ≤ steps) :
    arena.Traverses stack order.toList (arena.visit steps stack visited order).toList := by
  induction steps generalizing stack visited order with
  | zero =>
      cases List.eq_nil_of_length_eq_zero (Nat.eq_zero_of_add_eq_zero_right (Nat.le_zero.mp enough))
      exact .nil _
  | succ steps inductionHypothesis =>
      cases stack with
      | nil => exact .nil _
      | cons top stack =>
          rw [List.length_cons] at enough
          rw [visit]
          split
          case isTrue isVisited =>
            have seen := (mem_iff top).mpr (by simpa using isVisited)
            exact .again seen (inductionHypothesis stack visited order mem_iff (by omega))
          case isFalse isNew =>
            have isNew : top ∉ visited := by simpa using isNew
            have unlisted : top ∉ order.toList := fun listed => isNew ((mem_iff top).mp listed)
            have mem_iff' : ∀ id, id ∈ (order.push top).toList ↔ id ∈ visited.insert top := by
              grind
            have fewer := arena.unvisited_insert isNew
            have pushed := traverses_of_pushed mem_iff' (inductionHypothesis
              (arena.pushed (visited.insert top) top ++ stack) (visited.insert top)
              (order.push top) mem_iff' (by rw [List.length_append]; omega))
            rw [Array.toList_push] at pushed
            obtain ⟨between, below, later⟩ := Traverses.append_iff.mp pushed
            exact .visit unlisted below later

/-- The search finds the recursive preorder. -/
theorem preorder_iff {order : List ExprId} :
    arena.Preorder root order ↔ order = arena.depthFirst root := by
  have found : arena.Preorder root (arena.depthFirst root) :=
    traverses_visit (2 * arena.size + 1) [root] ∅ #[] (by simp) (arena.enough_steps root)
  constructor
  · intro preorder
    exact preorder.unique found
  · rintro rfl
    exact found

theorem nodup_depthFirst : (arena.depthFirst root).Nodup :=
  (preorder_iff.mpr rfl).nodup List.nodup_nil

/-- The search lists exactly what can be reached. -/
theorem mem_depthFirst_iff : id ∈ arena.depthFirst root ↔ arena.Links root id := by
  have searching : arena.Searching [root] ∅ #[] := ⟨by simp, by simp⟩
  obtain ⟨listed, closed⟩ := visit_closed _ [root] ∅ #[] searching (arena.enough_steps root)
  unfold depthFirst
  rw [Array.mem_toList_iff]
  constructor
  · intro member
    refine forall_mem_visit (fun above links next isNext => links.tail isNext) _ [root] ∅ #[] ?_ ?_
      id member
    · intro id member
      rw [List.mem_singleton.mp member]
      exact .refl
    · simp
  · intro links
    induction links with
    | refl => exact listed root (.inr List.mem_cons_self)
    | tail _ isNext member => exact closed _ member _ isNext

end Residual.Arena
