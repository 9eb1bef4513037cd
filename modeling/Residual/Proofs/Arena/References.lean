import Mathlib.Logic.Relation
import Residual.Proofs.Arena.Growth

/-!
# Reference chains

A link may be bound to a link that came before or after it, so that no order of the numbers bounds
a chain.  What bounds it is that `bind` compares the end of the target's chain with the link: the
link that is bound is itself the end of every chain that passes through it, and the chain of its new
target ends elsewhere.  So no sequence of operations closes a chain, and binding moves the ends of
just those chains that ended at the link.
-/

set_option autoImplicit false

namespace Residual.Arena

open Relation

variable {arena : Arena} {id link target last : ExprId}

/-- The arena comes from the initial one by adding expressions and links and by binding, each time
with numbers that exist. -/
inductive Built : Arena → Prop where
  | initial : Built initial
  | push {arena : Arena} (e : Expr ExprId) : Built arena →
      (∀ operand ∈ e.operands, operand.number < arena.size) → Built (arena.push e).2
  | reserve {arena : Arena} : Built arena → Built arena.reserve.2
  /-- Binding may be refused, and then nothing was done. -/
  | bind {arena : Arena} (link target : ExprId) : Built arena → link.number < arena.size →
      target.number < arena.size → Built (arena.bind link target).2

theorem Built.wellFormed (built : arena.Built) : arena.WellFormed := by
  induction built with
  | initial => exact wellFormed_initial
  | push e _ operands inductionHypothesis => exact inductionHypothesis.push operands
  | reserve _ inductionHypothesis => exact inductionHypothesis.reserve
  | @bind arena link target _ _ inside inductionHypothesis =>
      by_cases unbound : arena.slot? link = some (.link none)
      · exact inductionHypothesis.bind target unbound inside
      · rwa [bind_of_not_unbound unbound]

/-! ## Chains -/

/-- The slot is a link that is bound to the target. -/
def LinksTo (arena : Arena) (id target : ExprId) : Prop :=
  arena.slot? id = some (.link (some target))

/-- Going along a chain shortens it. -/
theorem Leads.of_transGen {steps : Nat} (onward : TransGen arena.LinksTo id target)
    (chain : arena.Leads steps target last) :
    ∃ longer, steps < longer ∧ arena.Leads longer id last := by
  induction onward using TransGen.head_induction_on with
  | single found => exact ⟨steps + 1, Nat.lt_succ_self steps, .link found chain⟩
  | head found _ inductionHypothesis =>
      obtain ⟨longer, isLonger, rest⟩ := inductionHypothesis
      exact ⟨longer + 1, Nat.lt_succ_of_lt isLonger, .link found rest⟩

namespace WellFormed

variable (wellFormed : arena.WellFormed)

include wellFormed

theorem linksTo_acyclic (id : ExprId) : ¬ TransGen arena.LinksTo id id := by
  intro cycle
  obtain ⟨steps, chain⟩ := wellFormed.leads_resolve id
  obtain ⟨longer, isLonger, chain'⟩ := Leads.of_transGen cycle chain
  have same := (chain.unique chain').1
  omega

/-- Binding a link moves the ends of the chains that ended at it, and of no others. -/
theorem resolve_bind (unbound : arena.slot? link = some (.link none))
    (inside : target.number < arena.size) (id : ExprId) :
    (arena.bind link target).2.resolve id =
      if arena.resolve id = link then
        if arena.resolve target = link then .nil else arena.resolve target
      else arena.resolve id := by
  have elsewhere : ∀ {other : ExprId}, arena.resolve other ≠ link →
      (arena.bind link target).2.resolve other = arena.resolve other := by
    intro other distinct
    obtain ⟨steps, chain⟩ := wellFormed.leads_resolve other
    exact (chain.bind target unbound distinct).resolve_eq
  split
  · rename_i atLink
    have moved : (arena.bind link target).2.resolve id = (arena.bind link target).2.resolve link := by
      rw [← (grows_bind target unbound).resolve_resolve wellFormed
        (wellFormed.bind target unbound inside) id, atLink]
    rw [moved]
    split
    · rename_i itself
      exact wellFormed.resolve_bind_itself target unbound inside itself
    · rename_i distinct
      rw [wellFormed.resolve_bind_link target unbound inside, elsewhere distinct]
  · rename_i distinct
    exact elsewhere distinct

end WellFormed

/-! ## The main theorem -/

/-- Whatever was added and bound, in any order and direction, no chain of links is closed: following
one ends, after no more links than there are slots, and where it ends there is an expression or an
unbound link.  Binding succeeds for unbound links and for nothing else.  Then the chains that ended
at the link end where the target's chain ended, or at `∅` if that was the link itself; all other
chains end where they did, and no other slot is touched.  Binding that fails changes nothing. -/
theorem resolve_and_bind_of_built (built : arena.Built) :
    (∀ id, ¬ TransGen arena.LinksTo id id) ∧
    (∀ id : ExprId, id.number < arena.size →
      (∃ steps, steps ≤ arena.size ∧ arena.Leads steps id (arena.resolve id)) ∧
      arena.resolve (arena.resolve id) = arena.resolve id ∧
      ((∃ e, arena.slot? (arena.resolve id) = some (.expr e)) ∨
        arena.isUnbound (arena.resolve id) = true)) ∧
    ∀ link target : ExprId, link.number < arena.size → target.number < arena.size →
      ((arena.bind link target).1 = true ↔ arena.isUnbound link = true) ∧
      ((arena.bind link target).1 = true →
        (∀ id, (arena.bind link target).2.resolve id =
          if arena.resolve id = link then
            if arena.resolve target = link then .nil else arena.resolve target
          else arena.resolve id) ∧
        (∀ id, id ≠ link → (arena.bind link target).2.slot? id = arena.slot? id) ∧
        (arena.bind link target).2.size = arena.size) ∧
      ((arena.bind link target).1 = false → (arena.bind link target).2 = arena) := by
  have wellFormed := built.wellFormed
  refine ⟨wellFormed.linksTo_acyclic, fun id inside => ⟨?_, wellFormed.resolve_resolve id, ?_⟩,
    fun link target _ inside => ?_⟩
  · obtain ⟨steps, chain⟩ := wellFormed.leads_resolve id
    exact ⟨steps, chain.steps_le_size, chain⟩
  · rcases wellFormed.stands_or_unbound inside with known | unbound
    · exact .inl known
    · exact .inr (isUnbound_iff.mpr unbound)
  · by_cases unbound : arena.slot? link = some (.link none)
    · have bound : (arena.bind link target).1 = true := (bind_of_unbound unbound).1
      refine ⟨iff_of_true bound (isUnbound_iff.mpr unbound), fun _ => ?_, fun refused => ?_⟩
      · exact ⟨wellFormed.resolve_bind unbound inside,
          fun _ distinct => slot?_bind_of_ne target unbound distinct, size_bind target unbound⟩
      · cases bound.symm.trans refused
    · have refused : arena.bind link target = (false, arena) := bind_of_not_unbound unbound
      rw [refused]
      exact ⟨iff_of_false Bool.false_ne_true (unbound ∘ isUnbound_iff.mp), nofun, fun _ => rfl⟩

/-- Three links in one chain: the second one is bound to the first, and the first to the third. -/
def threeLinks : Arena :=
  let reserved := initial.reserve.2.reserve.2.reserve.2
  ((reserved.bind ⟨4⟩ ⟨3⟩).2.bind ⟨3⟩ ⟨5⟩).2

theorem threeLinks_built : threeLinks.Built :=
  .bind ⟨3⟩ ⟨5⟩ (.bind ⟨4⟩ ⟨3⟩ (.reserve (.reserve (.reserve .initial))) (by decide) (by decide))
    (by decide) (by decide)

/-- An attempt to close the chain binds all three links to `∅`. -/
theorem resolve_and_bind_threeLinks :
    threeLinks.Built ∧ threeLinks.resolve ⟨4⟩ = ⟨5⟩ ∧ (threeLinks.bind ⟨5⟩ ⟨4⟩).1 = true ∧
      (threeLinks.bind ⟨5⟩ ⟨4⟩).2.resolve ⟨4⟩ = .nil ∧
      (threeLinks.bind ⟨4⟩ ⟨5⟩).2 = threeLinks := by
  obtain ⟨_, _, binds⟩ := resolve_and_bind_of_built threeLinks_built
  obtain ⟨succeeds_iff, redirects, _⟩ := binds ⟨5⟩ ⟨4⟩ (by decide) (by decide)
  have bound : (threeLinks.bind ⟨5⟩ ⟨4⟩).1 = true := succeeds_iff.mpr (by decide)
  obtain ⟨_, _, unchanged⟩ := binds ⟨4⟩ ⟨5⟩ (by decide) (by decide)
  refine ⟨threeLinks_built, by decide, bound, ?_, unchanged (by decide)⟩
  rw [(redirects bound).1 ⟨4⟩]
  decide

end Residual.Arena
