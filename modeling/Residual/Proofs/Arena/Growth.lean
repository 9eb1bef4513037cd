import Residual.Proofs.Arena.Chains

/-!
# Growing arenas

Everything that happens to an arena adds slots or binds unbound links.  `Grows` allows both;
`Extends` only adds slots, so that what was there before stands for the same expressions.

Adding, reserving and binding keep arenas well formed.
-/

set_option autoImplicit false

namespace Residual.Arena

variable {before between after : Arena} {id link target : ExprId} {e : Expr ExprId}

/-- The expressions and the bound links of an arena are still there in a later one. -/
structure Grows (before after : Arena) : Prop where
  expr : ∀ {id e}, before.slot? id = some (.expr e) → after.slot? id = some (.expr e)
  bound : ∀ {id target}, before.slot? id = some (.link (some target)) →
    after.slot? id = some (.link (some target))
  unbound : ∀ {id}, before.slot? id = some (.link none) →
    ∃ target, after.slot? id = some (.link target)

/-- The slots of an arena are unchanged in a later one. -/
def Extends (before after : Arena) : Prop :=
  ∀ id, id.number < before.size → after.slot? id = before.slot? id

namespace Grows

theorem refl (arena : Arena) : arena.Grows arena :=
  ⟨fun found => found, fun found => found, fun found => ⟨none, found⟩⟩

theorem trans (first : before.Grows between) (second : between.Grows after) :
    before.Grows after where
  expr found := second.expr (first.expr found)
  bound found := second.bound (first.bound found)
  unbound found := by
    obtain ⟨target, found⟩ := first.unbound found
    cases target with
    | none => exact second.unbound found
    | some target => exact ⟨some target, second.bound found⟩

variable (grows : before.Grows after)

include grows

theorem exists_slot? {slot : Slot} (found : before.slot? id = some slot) :
    ∃ slot, after.slot? id = some slot := by
  match slot, found with
  | .expr e, found => exact ⟨_, grows.expr found⟩
  | .link (some target), found => exact ⟨_, grows.bound found⟩
  | .link none, found =>
      obtain ⟨target, found⟩ := grows.unbound found
      exact ⟨_, found⟩

theorem lt_size (inside : id.number < before.size) : id.number < after.size := by
  obtain ⟨slot, found⟩ := Arena.exists_slot? inside
  obtain ⟨slot, found⟩ := grows.exists_slot? found
  exact lt_size_of_slot? found

/-- Nothing becomes an expression that was none before. -/
theorem expr_of_lt (inside : id.number < before.size) (found : after.slot? id = some (.expr e)) :
    before.slot? id = some (.expr e) := by
  obtain ⟨slot, isSlot⟩ := Arena.exists_slot? inside
  match slot, isSlot with
  | .expr e', isSlot =>
      cases (grows.expr isSlot).symm.trans found
      exact isSlot
  | .link (some target), isSlot => cases (grows.bound isSlot).symm.trans found
  | .link none, isSlot =>
      obtain ⟨target, isLink⟩ := grows.unbound isSlot
      cases isLink.symm.trans found

theorem size_le : before.size ≤ after.size := by
  by_contra larger
  have inside : (⟨after.size⟩ : ExprId).number < before.size := by
    change after.size < before.size
    omega
  exact absurd (grows.lt_size inside) (Nat.lt_irrefl _)

theorem resolve_eq_of_leads (wellFormed : after.WellFormed) {steps : Nat} {last : ExprId}
    (chain : before.Leads steps id last) : after.resolve id = after.resolve last := by
  induction chain with
  | stop _ => rfl
  | link found _ inductionHypothesis =>
      rw [wellFormed.resolve_link (grows.bound found), inductionHypothesis]

theorem resolve_resolve (wellFormed : before.WellFormed) (wellFormed' : after.WellFormed)
    (id : ExprId) : after.resolve (before.resolve id) = after.resolve id := by
  obtain ⟨steps, chain⟩ := wellFormed.leads_resolve id
  exact (grows.resolve_eq_of_leads wellFormed' chain).symm

/-- A number that stands for an expression has found its slot for good. -/
theorem resolve_of_stands (wellFormed : before.WellFormed) (wellFormed' : after.WellFormed)
    (stands : before.Stands id e) : after.resolve id = before.resolve id := by
  rw [← grows.resolve_resolve wellFormed wellFormed' id]
  exact resolve_of_expr (grows.expr stands)

theorem stands (wellFormed : before.WellFormed) (wellFormed' : after.WellFormed)
    (stands : before.Stands id e) : after.Stands id e := by
  rw [Stands, grows.resolve_of_stands wellFormed wellFormed' stands]
  exact grows.expr stands

/-- Only what was not known may stand for something else later. -/
theorem get_cases (wellFormed : before.WellFormed) (wellFormed' : after.WellFormed) (id : ExprId) :
    before.get id = .nil ∨ after.get id = before.get id := by
  unfold Arena.get
  split
  · rename_i e found
    exact .inr (get_of_stands (grows.stands wellFormed wellFormed' found))
  · exact .inl rfl

theorem mem_operands (wellFormed : before.WellFormed) (wellFormed' : after.WellFormed) {o : ExprId}
    (member : o ∈ (before.get id).operands) : o ∈ (after.get id).operands := by
  rcases grows.get_cases wellFormed wellFormed' id with isNil | same
  · rw [isNil] at member
    cases member
  · rwa [same]

end Grows

namespace Extends

theorem refl (arena : Arena) : arena.Extends arena :=
  fun _ _ => rfl

theorem grows (extending : before.Extends after) : before.Grows after where
  expr found := (extending _ (lt_size_of_slot? found)).trans found
  bound found := (extending _ (lt_size_of_slot? found)).trans found
  unbound found := ⟨none, (extending _ (lt_size_of_slot? found)).trans found⟩

theorem trans (first : before.Extends between) (second : between.Extends after) :
    before.Extends after := by
  intro id inside
  rw [second id (first.grows.lt_size inside), first id inside]

/-- Binding links that came later leaves the earlier slots unchanged. -/
theorem trans_of_agree (first : before.Extends between)
    (agree : ∀ id, id.number < before.size → after.slot? id = between.slot? id) :
    before.Extends after :=
  fun id inside => (agree id inside).trans (first id inside)

variable (extending : before.Extends after)

include extending

theorem leads (wellFormed : before.WellFormed) (inside : id.number < before.size)
    {steps : Nat} {last : ExprId} (chain : before.Leads steps id last) :
    after.Leads steps id last := by
  induction chain with
  | stop final =>
      refine .stop fun target => ?_
      rw [extending _ inside]
      exact final target
  | link found _ inductionHypothesis =>
      exact .link ((extending _ inside).trans found)
        (inductionHypothesis (wellFormed.target_lt found))

theorem resolve (wellFormed : before.WellFormed) (inside : id.number < before.size) :
    after.resolve id = before.resolve id := by
  obtain ⟨steps, chain⟩ := wellFormed.leads_resolve id
  exact (extending.leads wellFormed inside chain).resolve_eq

theorem slot?_resolve (wellFormed : before.WellFormed) (inside : id.number < before.size) :
    after.slot? (after.resolve id) = before.slot? (before.resolve id) := by
  rw [extending.resolve wellFormed inside]
  exact extending _ (wellFormed.resolve_lt inside)

theorem get (wellFormed : before.WellFormed) (inside : id.number < before.size) :
    after.get id = before.get id := by
  unfold Arena.get
  rw [extending.slot?_resolve wellFormed inside]

end Extends

/-! ## Adding slots -/

section Adding

variable {slot : Slot}

/-- The arena with one more slot. -/
theorem slot?_of_push_slots (added : after.slots = before.slots.push slot) (id : ExprId) :
    after.slot? id = if id.number = before.size then some slot else before.slot? id := by
  unfold slot? size
  rw [added, Array.getElem?_push]

theorem extends_of_push_slots (added : after.slots = before.slots.push slot) :
    before.Extends after := by
  intro id inside
  rw [slot?_of_push_slots added, if_neg (Nat.ne_of_lt inside)]

theorem size_of_push_slots (added : after.slots = before.slots.push slot) :
    after.size = before.size + 1 := by
  unfold size
  rw [added, Array.size_push]

theorem WellFormed.of_push_slots (wellFormed : before.WellFormed)
    (added : after.slots = before.slots.push slot)
    (operands : ∀ e, slot = .expr e → ∀ operand ∈ e.operands, operand.number < before.size)
    (final : ∀ target, slot ≠ .link (some target)) : after.WellFormed := by
  have extending : before.Extends after := extends_of_push_slots added
  have larger : after.size = before.size + 1 := size_of_push_slots added
  have found_cases : ∀ {id found}, after.slot? id = some found →
      found = slot ∨ before.slot? id = some found := by
    intro id found isFound
    rw [slot?_of_push_slots added] at isFound
    split at isFound
    · exact .inl (Option.some.inj isFound).symm
    · exact .inr isFound
  refine ⟨extending.grows.expr wellFormed.any, extending.grows.expr wellFormed.empty,
    extending.grows.expr wellFormed.nil, ?_, ?_, ?_⟩
  · intro id e found operand member
    rcases found_cases found with isNew | wasThere
    · have := operands e isNew.symm operand member
      omega
    · have := wellFormed.operand_lt wasThere operand member
      omega
  · intro id target found
    rcases found_cases found with isNew | wasThere
    · exact absurd isNew.symm (final target)
    · have := wellFormed.target_lt wasThere
      omega
  · intro id
    by_cases inside : id.number < before.size
    · obtain ⟨steps, last, chain⟩ := wellFormed.ends id
      exact ⟨steps, last, extending.leads wellFormed inside chain⟩
    · refine ⟨0, id, .stop fun target found => ?_⟩
      rcases found_cases found with isNew | wasThere
      · exact final target isNew.symm
      · exact inside (lt_size_of_slot? wasThere)

end Adding

/-- The number of an added expression stands for that expression. -/
theorem slot?_push (wellFormed : before.WellFormed) (e : Expr ExprId) :
    (before.push e).2.slot? (before.push e).1 = some (.expr e) := by
  cases e with
  | any => exact wellFormed.any
  | empty => exact wellFormed.empty
  | nil => exact wellFormed.nil
  | _ => exact (slot?_of_push_slots (show _ = before.slots.push _ from rfl) _).trans (if_pos rfl)

/-- An operator with operands gets a new number. -/
theorem number_push (before : Arena) (operands : e.operands ≠ []) :
    (before.push e).1.number = before.size := by
  cases e with
  | any | empty | nil => exact absurd rfl operands
  | _ => rfl

theorem extends_push (before : Arena) (e : Expr ExprId) : before.Extends (before.push e).2 := by
  cases e with
  | any | empty | nil => exact Extends.refl before
  | _ => exact extends_of_push_slots rfl

/-- No other slots come with an expression. -/
theorem slot_eq_of_push {slot : Slot} (outside : before.size ≤ id.number)
    (found : (before.push e).2.slot? id = some slot) : slot = .expr e := by
  cases e with
  | any | empty | nil => exact absurd (lt_size_of_slot? found) (Nat.not_lt_of_le outside)
  | _ =>
      rw [slot?_of_push_slots (show _ = before.slots.push (.expr _) from rfl)] at found
      split at found
      · exact (Option.some.inj found).symm
      · exact absurd (lt_size_of_slot? found) (Nat.not_lt_of_le outside)

/-- The slots that come with an expression are expressions. -/
theorem exists_expr_of_push {slot : Slot} (outside : before.size ≤ id.number)
    (found : (before.push e).2.slot? id = some slot) : ∃ e, slot = .expr e :=
  ⟨e, slot_eq_of_push outside found⟩

theorem WellFormed.push (wellFormed : before.WellFormed)
    (operands : ∀ operand ∈ e.operands, operand.number < before.size) :
    (before.push e).2.WellFormed := by
  cases e with
  | any | empty | nil => exact wellFormed
  | _ =>
      refine wellFormed.of_push_slots (show _ = before.slots.push (.expr _) from rfl) ?_ (by simp)
      intro e same
      cases same
      exact operands

theorem reserve_fst (before : Arena) : before.reserve.1 = ⟨before.size⟩ := rfl

theorem slot?_reserve (before : Arena) :
    before.reserve.2.slot? before.reserve.1 = some (.link none) :=
  (slot?_of_push_slots (show _ = before.slots.push _ from rfl) _).trans (if_pos rfl)

/-- The link is the only new slot. -/
theorem eq_reserve_of_new (inside : id.number < before.reserve.2.size)
    (isNew : ¬ id.number < before.size) : id = before.reserve.1 := by
  have larger : before.reserve.2.size = before.size + 1 := size_of_push_slots rfl
  obtain ⟨number⟩ := id
  dsimp only at inside isNew
  rw [reserve_fst, show number = before.size by omega]

theorem extends_reserve (before : Arena) : before.Extends before.reserve.2 :=
  extends_of_push_slots rfl

theorem WellFormed.reserve (wellFormed : before.WellFormed) : before.reserve.2.WellFormed :=
  wellFormed.of_push_slots (show _ = before.slots.push (.link none) from rfl) (by simp) (by simp)

theorem extends_intern (before : Arena) (text : String) : before.Extends (before.intern text) :=
  fun _ _ => rfl

theorem WellFormed.intern (wellFormed : before.WellFormed) (text : String) :
    (before.intern text).WellFormed where
  any := wellFormed.any
  empty := wellFormed.empty
  nil := wellFormed.nil
  operand_lt := wellFormed.operand_lt
  target_lt := wellFormed.target_lt
  ends id := by
    obtain ⟨steps, last, chain⟩ := wellFormed.ends id
    by_cases inside : id.number < before.size
    · exact ⟨steps, last, (extends_intern before text).leads wellFormed inside chain⟩
    · exact ⟨0, id, .stop fun target found => inside (lt_size_of_slot? found)⟩

/-! ## Binding links -/

section Binding

/-- What a link is bound to: `∅` if it would stand for itself. -/
def bindingTarget (arena : Arena) (link target : ExprId) : ExprId :=
  if arena.resolve target = link then .nil else target

theorem bind_of_unbound (unbound : before.slot? link = some (.link none)) :
    (before.bind link target).1 = true ∧
      (before.bind link target).2.slots =
        before.slots.set! link.number (.link (some (before.bindingTarget link target))) := by
  have isUnbound : before.isUnbound link = true := isUnbound_iff.mpr unbound
  unfold Arena.bind
  rw [if_pos isUnbound]
  exact ⟨rfl, rfl⟩

theorem bind_of_not_unbound (bound : before.slot? link ≠ some (.link none)) :
    before.bind link target = (false, before) := by
  unfold Arena.bind
  rw [if_neg fun isUnbound => bound (isUnbound_iff.mp isUnbound)]

variable (unbound : before.slot? link = some (.link none)) (target)

include unbound

theorem slot?_bind (id : ExprId) :
    (before.bind link target).2.slot? id =
      if id = link then some (.link (some (before.bindingTarget link target)))
      else before.slot? id := by
  have inside : link.number < before.slots.size := lt_size_of_slot? unbound
  unfold slot?
  rw [(bind_of_unbound unbound).2, Array.set!_eq_setIfInBounds, Array.getElem?_setIfInBounds]
  by_cases same : id = link
  · subst same
    simp [inside]
  · have distinct : link.number ≠ id.number := by
      intro equal
      exact same (by cases id; cases link; simp_all)
    rw [if_neg distinct, if_neg same]

theorem slot?_bind_link :
    (before.bind link target).2.slot? link =
      some (.link (some (before.bindingTarget link target))) := by
  rw [slot?_bind target unbound, if_pos rfl]

theorem slot?_bind_of_ne (distinct : id ≠ link) :
    (before.bind link target).2.slot? id = before.slot? id := by
  rw [slot?_bind target unbound, if_neg distinct]

theorem size_bind : (before.bind link target).2.size = before.size := by
  unfold size
  rw [(bind_of_unbound unbound).2, Array.set!_eq_setIfInBounds, Array.size_setIfInBounds]

theorem grows_bind : before.Grows (before.bind link target).2 where
  expr {id e} found := by
    have distinct : id ≠ link := by
      rintro rfl
      simp [unbound] at found
    rw [slot?_bind_of_ne target unbound distinct]
    exact found
  bound {id target'} found := by
    have distinct : id ≠ link := by
      rintro rfl
      simp [unbound] at found
    rw [slot?_bind_of_ne target unbound distinct]
    exact found
  unbound {id} found := by
    by_cases same : id = link
    · subst same
      exact ⟨_, slot?_bind_link target unbound⟩
    · exact ⟨none, by rw [slot?_bind_of_ne target unbound same]; exact found⟩

/-- A chain that does not end at the link is not touched by binding it. -/
theorem Leads.bind {steps : Nat} {last : ExprId} (chain : before.Leads steps id last)
    (elsewhere : last ≠ link) : (before.bind link target).2.Leads steps id last := by
  induction chain with
  | stop final =>
      refine .stop fun target' => ?_
      rw [slot?_bind_of_ne target unbound elsewhere]
      exact final target'
  | link found _ inductionHypothesis =>
      exact .link ((grows_bind target unbound).bound found) (inductionHypothesis elsewhere)

/-- A chain that ended at the link goes on from it. -/
theorem Leads.bind_link {steps steps' : Nat} {finish last : ExprId}
    (chain : before.Leads steps id finish) (atLink : finish = link)
    (onward : (before.bind link target).2.Leads steps' link last) :
    ∃ steps, (before.bind link target).2.Leads steps id last := by
  induction chain with
  | stop _ =>
      subst atLink
      exact ⟨steps', onward⟩
  | link found _ inductionHypothesis =>
      obtain ⟨steps, chain⟩ := inductionHypothesis atLink
      exact ⟨steps + 1, .link ((grows_bind target unbound).bound found) chain⟩

theorem bindingTarget_elsewhere (wellFormed : before.WellFormed) :
    before.resolve (before.bindingTarget link target) ≠ link := by
  unfold bindingTarget
  split
  · rw [wellFormed.resolve_nil]
    rintro rfl
    simp [wellFormed.nil] at unbound
  · assumption

omit unbound in
theorem bindingTarget_cases :
    before.bindingTarget link target = target ∨ before.bindingTarget link target = .nil := by
  unfold bindingTarget
  split
  · exact .inr rfl
  · exact .inl rfl

omit unbound in
theorem bindingTarget_lt (wellFormed : before.WellFormed) (inside : target.number < before.size) :
    (before.bindingTarget link target).number < before.size := by
  unfold bindingTarget
  split
  · exact wellFormed.nil_lt_size
  · exact inside

theorem WellFormed.bind (wellFormed : before.WellFormed) (inside : target.number < before.size) :
    (before.bind link target).2.WellFormed := by
  have grows := grows_bind target unbound
  have sameSize := size_bind target unbound
  refine ⟨grows.expr wellFormed.any, grows.expr wellFormed.empty, grows.expr wellFormed.nil,
    ?_, ?_, ?_⟩
  · intro id e found operand member
    rw [slot?_bind target unbound] at found
    split at found
    · cases found
    · rw [sameSize]
      exact wellFormed.operand_lt found operand member
  · intro id target' found
    rw [slot?_bind target unbound] at found
    rw [sameSize]
    split at found
    · cases found
      exact bindingTarget_lt target wellFormed inside
    · exact wellFormed.target_lt found
  · intro id
    obtain ⟨steps, chain⟩ := wellFormed.leads_resolve id
    by_cases atLink : before.resolve id = link
    · obtain ⟨onward, chain'⟩ :=
        wellFormed.leads_resolve (before.bindingTarget link target)
      have elsewhere := bindingTarget_elsewhere target unbound wellFormed
      obtain ⟨total, whole⟩ := Leads.bind_link target unbound chain atLink
        (.link (slot?_bind_link target unbound) (chain'.bind target unbound elsewhere))
      exact ⟨total, _, whole⟩
    · exact ⟨steps, _, chain.bind target unbound atLink⟩

/-- A link that was bound stands for what its target stands for. -/
theorem WellFormed.resolve_bind_link (wellFormed : before.WellFormed)
    (inside : target.number < before.size) :
    (before.bind link target).2.resolve link = (before.bind link target).2.resolve target := by
  have wellFormed' := wellFormed.bind target unbound inside
  have grows := grows_bind target unbound
  have found := slot?_bind_link target unbound
  by_cases itself : before.resolve target = link
  · rw [← grows.resolve_resolve wellFormed wellFormed' target, itself]
  · rw [wellFormed'.resolve_link found, bindingTarget, if_neg itself]

/-- A link that would stand for itself stands for `∅`. -/
theorem WellFormed.resolve_bind_itself (wellFormed : before.WellFormed)
    (inside : target.number < before.size) (itself : before.resolve target = link) :
    (before.bind link target).2.resolve link = .nil := by
  have wellFormed' := wellFormed.bind target unbound inside
  rw [wellFormed'.resolve_link (slot?_bind_link target unbound), bindingTarget, if_pos itself,
    wellFormed'.resolve_nil]

end Binding

end Residual.Arena
