import Residual.Proofs.Arena.Interpretation

/-!
# Histories of transformations

A transformation gives every key a link, and in the end an expression that the link is bound to.
Its history lists these results, the newest one first; a rule says how a result was made in the
arena of its time, from what was told about other keys.

`least_le_of_history` is the induction over a history: if the rule keeps values below the bounds
of their keys wherever it was told values below the bounds, then the least solution keeps the
results below the bounds.  What was told includes links that were bound only later, so the links
are cut to their bounds first.
-/

set_option autoImplicit false

namespace Residual

/-- What a transformation made of a key. -/
structure Result (Key : Type) where
  key : Key
  link : ExprId
  value : ExprId

/-- What may be told about a key: its settled value, its link, or its value. -/
def Told {Key : Type} (settled linked : Key → ExprId → Prop) (earlier : List (Result Key))
    (key : Key) (answer : ExprId) : Prop :=
  settled key answer ∨ linked key answer ∨
    ∃ result ∈ earlier, result.key = key ∧ result.value = answer

/-- The results of a transformation that started in the arena `base`, as seen from the arena
`final`.  The rule gets the arena in which a result was made; the only links bound there are those
of `base` and those of earlier results. -/
inductive History {Key : Type} (Rule : Arena → (Key → ExprId → Prop) → Key → ExprId → Prop)
    (base final : Arena) (settled linked : Key → ExprId → Prop) : List (Result Key) → Prop where
  | nil : History Rule base final settled linked []
  | cons {result : Result Key} {earlier : List (Result Key)} (arena : Arena) :
      History Rule base final settled linked earlier → arena.WellFormed → base.Extends arena →
      arena.Grows final →
      (∀ id target, arena.slot? id = some (.link (some target)) →
        id.number < base.size ∨ ∃ result ∈ earlier, result.link = id) →
      Rule arena (Told settled linked earlier) result.key result.value →
      History Rule base final settled linked (result :: earlier)

namespace History

variable {Key : Type} {Rule Rule' : Arena → (Key → ExprId → Prop) → Key → ExprId → Prop}
  {base final final' : Arena} {settled linked linked' : Key → ExprId → Prop}
  {results : List (Result Key)}

theorem mono (history : History Rule base final settled linked results)
    (growing : final.Grows final') (more : ∀ key link, linked key link → linked' key link)
    (weaken : ∀ {arena told told' key value}, (∀ key answer, told key answer → told' key answer) →
      Rule arena told key value → Rule' arena told' key value) :
    History Rule' base final' settled linked' results := by
  induction history with
  | nil => exact .nil
  | cons arena _ wellFormed extending grows bound rule inductionHypothesis =>
      refine .cons arena inductionHypothesis wellFormed extending (grows.trans growing) bound ?_
      exact weaken (fun key answer told => told.imp_right (.imp_left (more key answer))) rule

/-- Every result was made by the rule. -/
theorem exists_rule (history : History Rule base final settled linked results)
    {result : Result Key} (member : result ∈ results) :
    ∃ arena earlier, arena.WellFormed ∧ base.Extends arena ∧ arena.Grows final ∧
      (∀ result ∈ earlier, result ∈ results) ∧
      Rule arena (Told settled linked earlier) result.key result.value := by
  induction history with
  | nil => simp at member
  | @cons newest earlier arena _ wellFormed extending grows _ rule inductionHypothesis =>
      rcases List.mem_cons.mp member with rfl | member
      · exact ⟨arena, earlier, wellFormed, extending, grows,
          fun result member => List.mem_cons_of_mem _ member, rule⟩
      · obtain ⟨arena, earlier, wellFormed, extending, grows, sublist, rule⟩ :=
          inductionHypothesis member
        exact ⟨arena, earlier, wellFormed, extending, grows,
          fun result member => List.mem_cons_of_mem _ (sublist result member), rule⟩

end History

namespace Interpretation

variable {Meaning : Type} [CompleteLattice Meaning] (interpretation : Interpretation Meaning)

/-- Values below the least solution of `later` that are a solution but for links that were still
unbound in `arena`, or were bound to more than they are cut to. -/
structure Tame (base arena later : Arena) (values : ExprId → Meaning) : Prop where
  expr : ∀ {id e}, later.slot? id = some (.expr e) → values id = interpretation.apply (e.map values)
  resolve_le : ∀ id, values (arena.resolve id) ≤ values id
  resolve_eq : ∀ {id : ExprId}, id.number < base.size → values (arena.resolve id) = values id
  le_least : ∀ id, values id ≤ interpretation.least later id

/-- The results of a transformation: links that are bound to their values. -/
structure Bound {Key : Type} (base later : Arena) (results : List (Result Key)) : Prop where
  fresh : ∀ result ∈ results, base.size ≤ result.link.number
  unique : ∀ result ∈ results, ∀ result' ∈ results, result.link = result'.link → result = result'
  target : ∀ result ∈ results, ∃ target,
    later.slot? result.link = some (.link (some target)) ∧
      (target = result.value ∨ target = .nil)
  resolve : ∀ result ∈ results, later.resolve result.link = later.resolve result.value

theorem Bound.grows {Key : Type} {base before after : Arena} {results : List (Result Key)}
    (bound : Bound base before results) (growing : before.Grows after)
    (wellFormed : before.WellFormed) (wellFormed' : after.WellFormed) :
    Bound base after results where
  fresh := bound.fresh
  unique := bound.unique
  target result member := by
    obtain ⟨target, found, isTarget⟩ := bound.target result member
    exact ⟨target, growing.bound found, isTarget⟩
  resolve result member := by
    rw [← growing.resolve_resolve wellFormed wellFormed', bound.resolve result member,
      growing.resolve_resolve wellFormed wellFormed']

/-- A new link is bound to the value of its key. -/
theorem Bound.bind {Key : Type} {base arena : Arena} {results : List (Result Key)} {key : Key}
    {link value : ExprId} (bound : Bound base arena results) (wellFormed : arena.WellFormed)
    (isFresh : base.size ≤ link.number) (unbound : arena.slot? link = some (.link none))
    (inside : value.number < arena.size) :
    Bound base (arena.bind link value).2 (⟨key, link, value⟩ :: results) := by
  have otherLink : ∀ result ∈ results, result.link ≠ link := by
    rintro result member rfl
    obtain ⟨target, found, _⟩ := bound.target result member
    rw [unbound] at found
    cases found
  have bound' := bound.grows (Arena.grows_bind value unbound) wellFormed
    (wellFormed.bind value unbound inside)
  refine ⟨?fresh, ?unique, ?target, ?resolve⟩
  case unique =>
    intro result member result' member' sameLink
    rcases List.mem_cons.mp member with rfl | member <;>
      rcases List.mem_cons.mp member' with rfl | member'
    · rfl
    · exact absurd sameLink.symm (otherLink result' member')
    · exact absurd sameLink (otherLink result member)
    · exact bound.unique result member result' member' sameLink
  all_goals
    intro result member
    rcases List.mem_cons.mp member with rfl | member
  case fresh.inl => exact isFresh
  case fresh.inr => exact bound.fresh result member
  case target.inl =>
    exact ⟨_, Arena.slot?_bind_link value unbound, Arena.bindingTarget_cases value⟩
  case target.inr => exact bound'.target result member
  case resolve.inl => exact wellFormed.resolve_bind_link value unbound inside
  case resolve.inr => exact bound'.resolve result member

variable {Key : Type} {Rule : Arena → (Key → ExprId → Prop) → Key → ExprId → Prop}
  {base arena final later : Arena} {settled linked : Key → ExprId → Prop}
  {results earlier : List (Result Key)} {values : ExprId → Meaning}

/-- The number is the link of a result. -/
def Tied (results : List (Result Key)) (id : ExprId) : Prop :=
  ∃ result ∈ results, result.link = id

/-- The bound of the key that a link belongs to. -/
def linkBound (bound : Key → Meaning) (results : List (Result Key)) (id : ExprId) : Meaning :=
  ⨅ result ∈ results, ⨅ _ : result.link = id, bound result.key

theorem linkBound_le (bound : Key → Meaning) {result : Result Key} (member : result ∈ results) :
    linkBound bound results result.link ≤ bound result.key :=
  (iInf₂_le result member).trans (iInf_le _ rfl)

section Cut

variable {bound : Key → Meaning} (nothing : interpretation.apply .nil = ⊥)
  (wellFormed : base.WellFormed) (wellFormed' : later.WellFormed)
  (isBound : Bound base later results)
  (cut : interpretation.CutSolution later (Tied results) (linkBound bound results) values)

include isBound in
theorem not_tied {id : ExprId} (inside : id.number < base.size) : ¬ Tied results id := by
  rintro ⟨result, member, rfl⟩
  exact absurd (isBound.fresh result member) (Nat.not_le_of_lt inside)

include nothing wellFormed' isBound cut

/-- What a link is bound to stays below its own bound if its result does. -/
theorem values_target_le {result : Result Key} (member : result ∈ results)
    (below : values result.value ≤ bound result.key) {target : ExprId}
    (found : later.slot? result.link = some (.link (some target))) :
    values target ≤ linkBound bound results result.link := by
  refine le_iInf₂ fun other inResults => le_iInf fun sameLink => ?_
  obtain rfl := isBound.unique other inResults result member sameLink
  obtain ⟨target', found', isTarget⟩ := isBound.target other member
  rw [found] at found'
  cases found'
  rcases isTarget with rfl | rfl
  · exact below
  · refine (cut.le_least _).trans ?_
    rw [interpretation.least_expr wellFormed'.nil]
    exact nothing.le.trans bot_le

include wellFormed

theorem tame_of_cut (extending : base.Extends arena) (growing : arena.Grows later)
    (chains : arena.WellFormed)
    (links : ∀ id target, arena.slot? id = some (.link (some target)) →
      id.number < base.size ∨ ∃ result ∈ earlier, result.link = id)
    (members : ∀ result ∈ earlier, result ∈ results)
    (below : ∀ result ∈ earlier, values result.value ≤ bound result.key) :
    interpretation.Tame base arena later values where
  expr {id e} found := by
    have free : ¬ Tied results id := by
      rintro ⟨result, member, rfl⟩
      obtain ⟨target, found', _⟩ := isBound.target result member
      simp [found] at found'
    rw [cut.transfer_le id free, interpretation.transfer_expr found]
  resolve_le id := by
    obtain ⟨steps, chain⟩ := chains.leads_resolve id
    generalize arena.resolve id = last at chain
    induction chain with
    | stop _ => exact le_rfl
    | @link steps id target last found _ inductionHypothesis =>
        have found' := growing.bound found
        refine inductionHypothesis.trans ?_
        rcases links id target found with inside | ⟨result, member, rfl⟩
        · rw [cut.transfer_le id (not_tied isBound inside), interpretation.transfer_link found']
        · rw [cut.tied_eq _ ⟨result, members result member, rfl⟩]
          refine le_inf ?_ ?_
          · exact interpretation.values_target_le nothing wellFormed' isBound cut
              (members result member) (below result member) found'
          · rw [interpretation.least_link found']
            exact cut.le_least target
  resolve_eq {id} inside := by
    rw [extending.resolve wellFormed inside]
    obtain ⟨steps, chain⟩ := wellFormed.leads_resolve id
    generalize base.resolve id = last at chain
    induction chain with
    | stop _ => rfl
    | @link steps id target last found _ inductionHypothesis =>
        rw [inductionHypothesis (wellFormed.target_lt found),
          cut.transfer_le id (not_tied isBound inside),
          interpretation.transfer_link (growing.bound (extending.grows.bound found))]
  le_least := cut.le_least

end Cut

/-- The induction over a history. -/
theorem least_le_of_history (bound : Key → Meaning)
    (nothing : interpretation.apply .nil = ⊥) (wellFormed : base.WellFormed)
    (wellFormed' : later.WellFormed)
    (history : History Rule base final settled linked results) (growing : final.Grows later)
    (isBound : Bound base later results)
    (settledBound : ∀ key answer, settled key answer →
      interpretation.least later answer ≤ bound key)
    (linkedResult : ∀ key link, linked key link →
      ∃ result ∈ results, result.key = key ∧ result.link = link)
    (keeps : ∀ {arena told key value}, arena.WellFormed → base.Extends arena → arena.Grows later →
      Rule arena told key value → ∀ values, interpretation.Tame base arena later values →
      (∀ key answer, told key answer → values answer ≤ bound key) → values value ≤ bound key) :
    ∀ result ∈ results, interpretation.least later result.value ≤ bound result.key := by
  have links : ∀ id, Tied results id →
      interpretation.least later id ≤ linkBound bound results id := by
    refine fun id isTied => interpretation.least_le_of_tied (Tied results) (linkBound bound results)
      (fun values cut id isTied => ?_) id isTied
    -- the results are made one after the other
    have below : ∀ {part}, History Rule base final settled linked part →
        (∀ result ∈ part, result ∈ results) →
        ∀ result ∈ part, values result.value ≤ bound result.key := by
      intro part history
      induction history with
      | nil => simp
      | @cons newest earlier arena _ chains extending grows links rule inductionHypothesis =>
          intro members
          have members' : ∀ result ∈ earlier, result ∈ results :=
            fun result member => members result (by simp [member])
          have below := inductionHypothesis members'
          have tame := interpretation.tame_of_cut nothing wellFormed wellFormed' isBound cut extending
            (grows.trans growing) chains links members' below
          intro result member
          rcases List.mem_cons.mp member with rfl | member
          · refine keeps chains extending (grows.trans growing) rule values tame ?_
            rintro key answer (isSettled | isLinked | ⟨result, member, rfl, rfl⟩)
            · exact (cut.le_least _).trans (settledBound key answer isSettled)
            · obtain ⟨result, member, rfl, rfl⟩ := linkedResult key answer isLinked
              rw [cut.tied_eq _ ⟨result, member, rfl⟩]
              exact inf_le_left.trans (linkBound_le bound member)
            · exact below result member
          · exact below result member
    obtain ⟨result, member, rfl⟩ := isTied
    obtain ⟨target, found, _⟩ := isBound.target result member
    rw [interpretation.transfer_link found]
    exact interpretation.values_target_le nothing wellFormed' isBound cut member
      (below history (fun _ member => member) result member) found
  intro result member
  rw [← interpretation.least_eq_of_resolve wellFormed' (isBound.resolve result member)]
  exact (links _ ⟨result, member, rfl⟩).trans (linkBound_le bound member)

end Interpretation

end Residual
