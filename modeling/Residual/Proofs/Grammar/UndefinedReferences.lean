import Residual.Proofs.Arena.Preorder
import Residual.Proofs.Grammar.Questions

/-!
# References that are missing

A derivative or a decision is refused exactly if a reference is missing below the expression.  The
one that is reported is the first one in depth first order, and a refused question leaves no trace.
No later step reports a missing reference: the only other fault is a repetition without a count.
-/

set_option autoImplicit false

namespace Residual

/-- The link is the first one in recursive preorder that is unbound. -/
def Arena.FirstUnbound (arena : Arena) (root link : ExprId) : Prop :=
  ∃ earlier later, arena.Preorder root (earlier ++ link :: later) ∧ arena.isUnbound link = true ∧
    ∀ id ∈ earlier, arena.isUnbound id = false

theorem Arena.firstUnbound?_eq_some_iff {arena : Arena} {root link : ExprId} :
    arena.firstUnbound? root = some link ↔ arena.FirstUnbound root link := by
  unfold firstUnbound?
  rw [List.find?_eq_some_iff_append]
  constructor
  · rintro ⟨unbound, earlier, later, isOrder, others⟩
    exact ⟨earlier, later, preorder_iff.mpr isOrder.symm, unbound, by simpa using others⟩
  · rintro ⟨earlier, later, preorder, unbound, others⟩
    exact ⟨unbound, earlier, later, (preorder_iff.mp preorder).symm, by simpa using others⟩

namespace Grammar

open Memo

variable {grammar : Grammar} {id link : ExprId}

/-- The question is refused because of this reference. -/
def Refuses {Answer : Type} (result : Except Error Answer) (link : ExprId) : Prop :=
  result = .error (.undefinedReference link)

namespace Coherent

variable (coherent : grammar.Coherent)

include coherent

theorem deriveDefined_not_refuses (inside : id.number < grammar.arena.size) (c : Char) :
    Gives (Grammar.deriveDefined id c) grammar fun result _ => ∀ link, ¬ Refuses result link := by
  apply (coherent.deriveDefined_cases inside).mono
  rintro result after ⟨value, evaluated, results, _, ⟨_, rfl, _⟩ | ⟨_, rfl, _⟩⟩
  · exact fun _ => nofun
  · exact fun _ => nofun

/-- No step of a decision misses a reference. -/
theorem consume_not_refuses (inside : id.number < grammar.arena.size) (rest : List Char)
    (offset : Nat) :
    Gives (Grammar.consume id offset rest) grammar fun result _ =>
      ∀ link, ¬ Refuses result link := by
  induction rest generalizing grammar id offset with
  | nil =>
      intro link refused
      cases refused
  | cons c rest inductionHypothesis =>
      unfold Grammar.consume
      apply (gives_bind _ _ _).mpr
      apply (gives_get _).mpr
      split
      · intro link refused
        cases refused
      · apply (gives_bind _ _ _).mpr
        have derived := coherent.deriveDefined inside (c := c)
        apply (derived.and (coherent.deriveDefined_not_refuses inside c)).mono
        rintro (error | next) between ⟨derives, notRefused⟩
        · intro link refused
          cases refused
          exact notRefused link rfl
        · obtain ⟨nextInside, _⟩ := derives.isDerivative rfl
          have coherent := derives.advances.coherent
          have onward : ∀ {begun : Grammar} {value : ExprId}, begun.Coherent →
              value.number < begun.arena.size → Gives (do
                if (← get).journal.recording then
                  let rendering ← Grammar.render value
                  modify (note (.residual c offset rendering))
                Grammar.consume value (offset + c.utf8Size) rest) begun
                fun result _ => ∀ link, ¬ Refuses result link := by
            intro begun value coherent inside
            apply coherent.gives_reported inside
            intro after advances
            exact inductionHypothesis advances.coherent (advances.lt_size inside) _
          apply (gives_bind _ _ _).mpr
          apply (gives_get _).mpr
          split
          · apply (gives_bind _ _ _).mpr
            apply (coherent.canonicalize nextInside).mono
            intro value begun normalized
            obtain ⟨normalizes, _⟩ := normalized
            exact onward normalizes.advances.coherent normalizes.inside
          · exact onward coherent nextInside

end Coherent

namespace Reachable

variable (reachable : grammar.Reachable)

include reachable

/-- Where no unbound link is counted, a search finds none. -/
theorem undefined?_eq : grammar.undefined? id = grammar.arena.firstUnbound? id := by
  cases missing : grammar.undefined? id with
  | none =>
      have defined := reachable.defined_of_undefined? missing
      exact (reachable.coherent.wellFormed.firstUnbound?_eq_none defined).symm
  | some link =>
      unfold undefined? at missing
      split at missing
      · cases missing
      · exact missing.symm

theorem exists_firstUnbound_iff :
    (∃ link, grammar.arena.FirstUnbound id link) ↔
      ∃ link, grammar.arena.Reaches id link ∧ grammar.arena.isUnbound link = true := by
  have wellFormed := reachable.coherent.wellFormed
  constructor
  · rintro ⟨link, first⟩
    by_contra noneReached
    have defined : grammar.arena.Defined id := by
      intro link reaches
      by_contra unbound
      exact noneReached ⟨link, reaches, (Bool.not_eq_false _).mp unbound⟩
    have notFound := wellFormed.firstUnbound?_eq_none defined
    cases notFound.symm.trans (Arena.firstUnbound?_eq_some_iff.mpr first)
  · rintro ⟨link, reaches, unbound⟩
    cases found : grammar.arena.firstUnbound? id with
    | some first => exact ⟨first, Arena.firstUnbound?_eq_some_iff.mp found⟩
    | none =>
        have bound := wellFormed.defined_of_firstUnbound? found link reaches
        cases bound.symm.trans unbound

/-- What is asked only if no reference is missing is refused, without a trace, because of the first
one that is. -/
theorem refuses_iff {Answer : Type} {next : Grammar → StateM Grammar (Except Error Answer)}
    (refuses : ∀ link, grammar.undefined? id = some link →
      next grammar = pure (.error (.undefinedReference link)))
    (asks : grammar.undefined? id = none →
      Gives (next grammar) grammar fun result _ => ∀ link, ¬ Refuses result link) :
    Gives (get >>= next) grammar fun result after => ∀ link,
      (Refuses result link ↔ grammar.arena.FirstUnbound id link) ∧
        (Refuses result link → after = grammar) := by
  apply (gives_bind _ _ _).mpr
  apply (gives_get _).mpr
  have first_iff : ∀ link,
      grammar.arena.FirstUnbound id link ↔ grammar.undefined? id = some link := by
    intro link
    rw [reachable.undefined?_eq, Arena.firstUnbound?_eq_some_iff]
  cases missing : grammar.undefined? id with
  | some first =>
      rw [refuses first missing]
      intro link
      rw [first_iff, missing]
      refine ⟨?_, fun _ => rfl⟩
      constructor
      · rintro ⟨⟩
        rfl
      · rintro ⟨⟩
        rfl
  | none =>
      apply (asks missing).mono
      intro result after notRefused link
      rw [first_iff, missing]
      exact ⟨iff_of_false (notRefused link) nofun, fun refused => absurd refused (notRefused link)⟩

theorem derivative_refuses_iff (inside : id.number < grammar.arena.size) (c : Char) :
    Gives (Grammar.derivative id c) grammar fun result after => ∀ link,
      (Refuses result link ↔ grammar.arena.FirstUnbound id link) ∧
        (Refuses result link → after = grammar) := by
  apply reachable.refuses_iff
  · intro link missing
    simp only [missing]
  · intro noneMissing
    simp only [noneMissing]
    exact reachable.coherent.deriveDefined_not_refuses inside c

theorem accepts_refuses_iff (inside : id.number < grammar.arena.size) (text : String) :
    Gives (Grammar.accepts (.expr id) text) grammar fun result after => ∀ link,
      (Refuses result link ↔ grammar.arena.FirstUnbound id link) ∧
        (Refuses result link → after = grammar) := by
  apply (gives_bind _ _ _).mpr
  apply (gives_pure _ _).mpr
  apply reachable.refuses_iff
  · intro link missing
    simp only [missing]
  · intro noneMissing
    simp only [noneMissing]
    apply (gives_bind _ _ _).mpr
    apply (reachable.coherent.canonicalize inside).mono
    intro start between normalized
    obtain ⟨normalizes, _⟩ := normalized
    apply (gives_bind _ _ _).mpr
    apply (normalizes.advances.coherent.consume_not_refuses normalizes.inside _ 0).mono
    intro result after notRefused
    match result with
    | .error error =>
        intro link refused
        cases refused
        exact notRefused link rfl
    | .ok (.rejected offset) => exact fun _ => nofun
    | .ok (.residual last) =>
        have decided : ∀ last between, Gives (do
            let accepted ← nullable last
            modify (note (.decided id text accepted))
            return .ok accepted : StateM Grammar (Except Error Bool)) between
            fun result _ => ∀ link, ¬ Refuses result link :=
          fun _ _ _ => nofun
        apply (gives_bind _ _ _).mpr
        apply (gives_get _).mpr
        split
        · exact decided last after
        · apply (gives_bind _ _ _).mpr
          apply Gives.of_forall
          exact decided

/-- References that are missing are reported exactly and in order.  The search ends and finds the
recursive preorder, in which everything that can be reached is listed once; it is safe to leave it
out where no unbound link is counted.  A derivative and a decision are refused if and only if an
unbound reference can be reached, because of the first one in this order, and then nothing has
changed. -/
theorem undefined_reported (inside : id.number < grammar.arena.size) :
    (∀ order, grammar.arena.Preorder id order ↔ order = grammar.arena.depthFirst id) ∧
    (grammar.arena.depthFirst id).Nodup ∧
    (∀ other, other ∈ grammar.arena.depthFirst id ↔ grammar.arena.Links id other) ∧
    grammar.undefined? id = grammar.arena.firstUnbound? id ∧
    ((∃ link, grammar.arena.FirstUnbound id link) ↔
      ∃ link, grammar.arena.Reaches id link ∧ grammar.arena.isUnbound link = true) ∧
    ∀ link,
      (∀ c, ((Grammar.derivative id c grammar).1 = .error (.undefinedReference link) ↔
          grammar.arena.FirstUnbound id link) ∧
        ((Grammar.derivative id c grammar).1 = .error (.undefinedReference link) →
          (Grammar.derivative id c grammar).2 = grammar)) ∧
      ∀ text, ((Grammar.accepts (.expr id) text grammar).1 = .error (.undefinedReference link) ↔
          grammar.arena.FirstUnbound id link) ∧
        ((Grammar.accepts (.expr id) text grammar).1 = .error (.undefinedReference link) →
          (Grammar.accepts (.expr id) text grammar).2 = grammar) := by
  refine ⟨fun order => Arena.preorder_iff, Arena.nodup_depthFirst,
    fun other => Arena.mem_depthFirst_iff, reachable.undefined?_eq,
    reachable.exists_firstUnbound_iff, fun link => ⟨fun c => ?_, fun text => ?_⟩⟩
  · exact reachable.derivative_refuses_iff inside c link
  · exact reachable.accepts_refuses_iff inside text link

end Reachable

theorem undefined_reported_openRule :
    (∀ c, (derivative ⟨4⟩ c openRule).1 = .error (.undefinedReference ⟨3⟩)) ∧
    ∀ text, (accepts (.expr ⟨4⟩) text openRule).1 = .error (.undefinedReference ⟨3⟩) ∧
      (accepts (.expr ⟨4⟩) text openRule).2 = openRule := by
  have first : openRule.arena.FirstUnbound ⟨4⟩ ⟨3⟩ := by
    refine ⟨[⟨4⟩, ⟨5⟩], [], ?_, rfl, by decide⟩
    exact .visit nofun (.visit (by decide) (.visit (by decide) (.nil _) (.nil _)) (.nil _)) (.nil _)
  obtain ⟨_, _, _, _, _, reported⟩ := openRule_awaits.reachable.undefined_reported
    (show (⟨4⟩ : ExprId).number < openRule.arena.size by decide)
  obtain ⟨derivative, accepts⟩ := reported ⟨3⟩
  refine ⟨fun c => (derivative c).1.mpr first, fun text => ?_⟩
  have refused := (accepts text).1.mpr first
  exact ⟨refused, (accepts text).2 refused⟩

end Grammar

end Residual
