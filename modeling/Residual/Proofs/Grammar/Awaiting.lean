import Residual.Proofs.Grammar.Reachable

/-!
# Unbound references are those that were declared

Between calls the unbound links of an arena are the references that were declared and not defined
since.  No link that a transformation reserved is among them, and the count of unbound links, by
which expressions are known to be defined, is their number.
-/

set_option autoImplicit false

namespace Residual.Grammar

open Memo

variable {grammar before after : Grammar} {id link target : ExprId} {awaited : Finset ExprId}

/-- After some calls these references were declared and not defined since. -/
inductive Awaits : Grammar → Finset ExprId → Prop where
  | new (config : Config) : Awaits (ofConfig config) ∅
  | declare {grammar : Grammar} {awaited : Finset ExprId} : Awaits grammar awaited →
      Awaits (declare grammar).2 (insert (declare grammar).1 awaited)
  | define {grammar : Grammar} {awaited : Finset ExprId} {link : ExprId} {lang : Operand} :
      Awaits grammar awaited →
      (∀ id ∈ (Call.define link lang).ids, id.number < grammar.arena.size) →
      (define link lang grammar).1 = .ok () →
      Awaits (define link lang grammar).2 (awaited.erase link)
  /-- What is not a reference, or is defined already, cannot be defined. -/
  | refused {grammar : Grammar} {awaited : Finset ExprId} {link : ExprId} {lang : Operand}
      {error : Error} : Awaits grammar awaited →
      (∀ id ∈ (Call.define link lang).ids, id.number < grammar.arena.size) →
      (define link lang grammar).1 = .error error → Awaits (define link lang grammar).2 awaited
  | tie {grammar : Grammar} {awaited : Finset ExprId} {link target : ExprId} :
      Awaits grammar awaited →
      (∀ id ∈ (Call.tie link target).ids, id.number < grammar.arena.size) →
      Awaits (tie link target grammar).2 (awaited.erase link)
  | call {grammar : Grammar} {awaited : Finset ExprId} (call : Call) : Awaits grammar awaited →
      (∀ id ∈ call.ids, id.number < grammar.arena.size) → call.defines = false →
      call ≠ .declare → Awaits (call.run grammar).2 awaited

/-- The unbound links are these, and they are counted. -/
structure Counts (grammar : Grammar) (awaited : Finset ExprId) : Prop where
  unbound_iff : ∀ id, grammar.arena.slot? id = some (.link none) ↔ id ∈ awaited
  card_eq : grammar.arena.unbound = awaited.card

theorem Counts.balances (counts : before.Counts awaited) (balances : before.Balances after) :
    after.Counts awaited :=
  ⟨fun id => (balances.1 id).trans (counts.unbound_iff id), balances.2.trans counts.card_eq⟩

theorem counts_new (config : Config) : (ofConfig config).Counts ∅ := by
  refine ⟨fun id => ⟨fun unbound => ?_, nofun⟩, rfl⟩
  obtain ⟨_ | _ | _ | number⟩ := id
  all_goals cases unbound

theorem Counts.declare (counts : grammar.Counts awaited) :
    (declare grammar).2.Counts (insert (declare grammar).1 awaited) where
  unbound_iff id := by
    refine Arena.isUnbound_reserve.trans ?_
    rw [counts.unbound_iff, Finset.mem_insert, or_comm]
    rfl
  card_eq := by
    have isNew : (Grammar.declare grammar).1 ∉ awaited := fun member =>
      Arena.not_unbound_reserve ((counts.unbound_iff _).mpr member)
    rw [Finset.card_insert_of_notMem isNew, ← counts.card_eq]
    rfl

/-- A link that is bound is not awaited any more.  Binding another one changes nothing. -/
theorem Counts.bind (counts : grammar.Counts awaited)
    (isArena : after.arena = (grammar.arena.bind link target).2) :
    after.Counts (awaited.erase link) := by
  by_cases unbound : grammar.arena.slot? link = some (.link none)
  · refine ⟨fun id => ?_, ?_⟩
    · rw [isArena, Arena.isUnbound_bind unbound, counts.unbound_iff, Finset.mem_erase, and_comm]
    · rw [isArena, Arena.unbound_bind unbound, counts.card_eq,
        Finset.card_erase_of_mem ((counts.unbound_iff link).mp unbound)]
  · rw [Arena.bind_of_not_unbound unbound] at isArena
    rw [Finset.erase_eq_of_notMem fun member => unbound ((counts.unbound_iff link).mpr member)]
    refine counts.balances ⟨fun id => ?_, ?_⟩
    · rw [isArena]
    · rw [isArena]

namespace Coherent

variable (coherent : grammar.Coherent)

include coherent

/-- A definition that is refused only made its operand, and another one binds its link then. -/
theorem define_binds (link : ExprId) (lang : Operand)
    (inside : ∀ id ∈ lang.ids, id.number < grammar.arena.size) :
    Gives (Grammar.define link lang) grammar fun result after =>
      ∃ made, grammar.Discharges made ∧
        ((∃ error, result = .error error) ∧ after = made ∨
          result = .ok () ∧ ∃ target, after.arena = (made.arena.bind link target).2) := by
  refine (gives_bind _ _ _).mpr ((coherent.makes_operand lang inside).mono ?_)
  rintro target made ⟨advances, _⟩
  refine (gives_bind _ _ _).mpr ((gives_get _).mpr ?_)
  split
  · exact (gives_pure _ _).mpr ⟨made, advances.discharges, .inl ⟨⟨_, rfl⟩, rfl⟩⟩
  · refine (gives_bind _ _ _).mpr ?_
    by_cases unbound : made.arena.slot? link = some (.link none)
    · have wasUnbound : (bindLink link target made).1 = true := (Arena.bind_of_unbound unbound).1
      unfold Gives
      rw [wasUnbound]
      exact ⟨made, advances.discharges, .inr ⟨rfl, target, rfl⟩⟩
    · unfold Gives
      rw [Coherent.bindLink_of_not_unbound unbound]
      exact ⟨made, advances.discharges, .inl ⟨⟨_, rfl⟩, rfl⟩⟩

/-- Calls discharge the links that they reserve, but for declarations. -/
theorem discharges_run (call : Call) (inside : ∀ id ∈ call.ids, id.number < grammar.arena.size)
    (defines : call.defines = false) (declares : call ≠ .declare) :
    grammar.Discharges (call.run grammar).2 := by
  by_cases clears : call = .clearTables
  · rw [clears]
    exact .aside rfl rfl
  · exact (coherent.advances_run call inside defines declares clears).discharges

end Coherent

theorem Awaits.reachable (awaits : grammar.Awaits awaited) : grammar.Reachable := by
  induction awaits with
  | new config => exact ⟨config, .refl⟩
  | declare _ inductionHypothesis =>
      obtain ⟨config, evolves⟩ := inductionHypothesis
      exact ⟨config, .call .declare evolves nofun⟩
  | @define _ _ link lang _ inside _ inductionHypothesis
  | @refused _ _ link lang _ _ inside _ inductionHypothesis =>
      obtain ⟨config, evolves⟩ := inductionHypothesis
      exact ⟨config, .call (.define link lang) evolves inside⟩
  | @tie _ _ link target _ inside inductionHypothesis =>
      obtain ⟨config, evolves⟩ := inductionHypothesis
      exact ⟨config, .call (.tie link target) evolves inside⟩
  | call call _ inside _ _ inductionHypothesis =>
      obtain ⟨config, evolves⟩ := inductionHypothesis
      exact ⟨config, .call call evolves inside⟩

theorem Reachable.exists_awaits (reachable : grammar.Reachable) :
    ∃ awaited, grammar.Awaits awaited := by
  obtain ⟨config, evolves⟩ := reachable
  induction evolves with
  | refl => exact ⟨∅, .new config⟩
  | @call grammar call _ inside inductionHypothesis =>
      obtain ⟨awaited, awaits⟩ := inductionHypothesis
      cases call with
      | declare => exact ⟨_, awaits.declare⟩
      | define link lang =>
          cases result : (Grammar.define link lang grammar).1 with
          | ok _ => exact ⟨_, awaits.define inside result⟩
          | error error => exact ⟨_, awaits.refused inside result⟩
      | tie link target => exact ⟨_, awaits.tie inside⟩
      | _ => exact ⟨_, awaits.call _ inside rfl (by simp)⟩

theorem Awaits.counts (awaits : grammar.Awaits awaited) : grammar.Counts awaited := by
  induction awaits with
  | new config => exact counts_new config
  | declare _ inductionHypothesis => exact inductionHypothesis.declare
  | @define grammar _ link lang awaits inside accepted inductionHypothesis =>
      obtain ⟨made, discharges, ⟨⟨error, refused⟩, _⟩ | ⟨_, target, isArena⟩⟩ :=
        awaits.reachable.coherent.define_binds link lang
          fun id member => inside id (List.mem_cons_of_mem _ member)
      · cases accepted.symm.trans refused
      · exact (inductionHypothesis.balances discharges.balances).bind isArena
  | @refused grammar _ link lang error awaits inside refused inductionHypothesis =>
      obtain ⟨made, discharges, ⟨_, same⟩ | ⟨accepted, _⟩⟩ :=
        awaits.reachable.coherent.define_binds link lang
          fun id member => inside id (List.mem_cons_of_mem _ member)
      · rw [same]
        exact inductionHypothesis.balances discharges.balances
      · cases accepted.symm.trans refused
  | tie _ _ inductionHypothesis => exact inductionHypothesis.bind rfl
  | call call awaits inside defines declares inductionHypothesis =>
      have discharges := awaits.reachable.coherent.discharges_run call inside defines declares
      exact inductionHypothesis.balances discharges.balances

/-- After any calls the unbound links are exactly the references that were declared and not defined
since, and so many are counted, so that the count never falls below zero.  Every link that a call
reserves for itself it binds once, to the result it was reserved for. -/
theorem unbound_iff_awaited (reachable : grammar.Reachable) :
    (∃ awaited, grammar.Awaits awaited) ∧ ∀ awaited, grammar.Awaits awaited →
      (∀ id, grammar.arena.isUnbound id = true ↔ id ∈ awaited) ∧
      grammar.arena.unbound = awaited.card ∧
      (∀ id, grammar.arena.isUnbound id = true → 0 < grammar.arena.unbound) ∧
      ∀ call : Call, (∀ id ∈ call.ids, id.number < grammar.arena.size) → call.defines = false →
        call ≠ .declare → grammar.Discharges (call.run grammar).2 := by
  refine ⟨reachable.exists_awaits, fun awaited awaits => ?_⟩
  have counts := awaits.counts
  have unbound_iff : ∀ id, grammar.arena.isUnbound id = true ↔ id ∈ awaited := fun id =>
    Arena.isUnbound_iff.trans (counts.unbound_iff id)
  refine ⟨unbound_iff, counts.card_eq, fun id isUnbound => ?_, reachable.coherent.discharges_run⟩
  rw [counts.card_eq]
  exact Finset.card_pos.mpr ⟨id, (unbound_iff id).mp isUnbound⟩

/-- The grammar of the rule `S = R+`, in which `R` is declared and not defined. -/
def openRule : Grammar :=
  Prod.snd <| Id.run <| StateT.run (s := ofConfig {}) do
    let R ← declare
    let S ← declare
    let _ ← define S (← plus R)

theorem openRule_awaits : openRule.Awaits {⟨3⟩} := by
  have declared : (declare (declare (ofConfig {})).2).2.Awaits {⟨4⟩, ⟨3⟩} :=
    (Awaits.new {}).declare.declare
  have made := declared.call (.plus (.expr ⟨3⟩)) (by decide) rfl nofun
  exact made.define (by decide : ∀ id ∈ (Call.define ⟨4⟩ (.expr ⟨5⟩)).ids, _) rfl

theorem unbound_iff_awaited_openRule : openRule.Reachable ∧ openRule.Awaits {⟨3⟩} ∧
    (∀ id, openRule.arena.isUnbound id = true ↔ id ∈ ({⟨3⟩} : Finset ExprId)) ∧
    openRule.arena.unbound = 1 ∧
    ∀ call : Call, (∀ id ∈ call.ids, id.number < openRule.arena.size) → call.defines = false →
      call ≠ .declare → openRule.Discharges (call.run openRule).2 := by
  obtain ⟨_, answers⟩ := unbound_iff_awaited openRule_awaits.reachable
  obtain ⟨unbound_iff, counted, _, discharges⟩ := answers _ openRule_awaits
  exact ⟨openRule_awaits.reachable, openRule_awaits, unbound_iff, counted, discharges⟩

end Residual.Grammar
