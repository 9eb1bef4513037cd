import Residual.Proofs.Grammar.Correctness

/-!
# Derivatives one after the other

An expression may be derived by the characters of a text one after the other, and after some of
them the residual may be brought into its canonical form.  Whichever residuals that are, none of
the derivatives fails if every repetition has a count other than zero, and the last residual
contains the empty string if and only if the text is accepted.

A repetition of count zero is different.  Its derivative is `ε`, although no text but the empty one
is accepted.
-/

set_option autoImplicit false

namespace Residual.Grammar

open Memo Eval

variable {grammar before between after : Grammar} {id value : ExprId} {c : Char}
  {text rest : List Char}

/-- The residual of an expression after some characters, each of which comes with whether the
residual after it is brought into its canonical form. -/
def residual : (schedule : List (Char × Bool)) → ExprId → StateM Grammar (Except Error ExprId)
  | [], id => return .ok id
  | (c, canonical) :: schedule, id => do
      match ← derivative id c with
      | .error error => return .error error
      | .ok next =>
          let next ← if canonical then canonicalize next else pure next
          residual schedule next

/-- The characters of a schedule. -/
def scheduledText (schedule : List (Char × Bool)) : List Char :=
  schedule.map Prod.fst

/-- The grammar advances to an expression that can be derived again, and that means what a text
leaves of another one. -/
structure Follows (before : Grammar) (id : ExprId) (text : List Char) (value : ExprId)
    (after : Grammar) : Prop where
  advances : before.Advances after
  live : after.Live value
  leaves : before.Leaves id text value after

theorem Follows.refl (coherent : grammar.Coherent) (live : grammar.Live id) :
    grammar.Follows id [] id grammar :=
  ⟨coherent.advances_refl, live, .refl grammar id⟩

theorem Follows.trans {last : ExprId} (follows : before.Follows id text value between)
    (follows' : between.Follows value rest last after) :
    before.Follows id (text ++ rest) last after where
  advances := follows.advances.trans follows'.advances
  live := follows'.live
  leaves := follows.leaves.trans follows'.advances follows'.leaves

theorem Follows.normalize {value' : ExprId} (follows : before.Follows id text value between)
    (normalizes : between.Normalizes value value' after) (counted : after.arena.Counted value') :
    before.Follows id text value' after where
  advances := follows.advances.trans normalizes.advances
  live := follows.live.normalize follows.advances.coherent normalizes counted
  leaves := follows.leaves.normalize follows.advances.coherent follows.live.inside normalizes

namespace Coherent

variable (coherent : grammar.Coherent) (live : grammar.Live id)

include coherent live

/-- One character. -/
theorem derivative_follows : Gives (Grammar.derivative id c) grammar fun result after =>
    ∃ value, result = .ok value ∧ grammar.Follows id [c] value after := by
  refine (coherent.derivative live.inside).mono ?_
  rintro result after ⟨advances, derives⟩
  have derives := derives live.defined
  obtain ⟨value, rfl⟩ := derives.answers live.counted
  refine ⟨value, rfl, advances, live.derive coherent derives, ?_⟩
  exact .derive derives coherent live.inside rfl live.counted

/-- Deriving by a schedule answers with what the text leaves. -/
theorem residual (schedule : List (Char × Bool)) :
    Gives (Grammar.residual schedule id) grammar fun result after =>
      ∃ last, result = .ok last ∧ grammar.Follows id (scheduledText schedule) last after := by
  induction schedule generalizing grammar id with
  | nil => exact ⟨id, rfl, .refl coherent live⟩
  | cons step schedule inductionHypothesis =>
      obtain ⟨c, canonical⟩ := step
      have goesOn : ∀ {between : Grammar} {next : ExprId}, grammar.Follows id [c] next between →
          Gives (Grammar.residual schedule next) between fun result after =>
            ∃ last, result = .ok last ∧
              grammar.Follows id (scheduledText ((c, canonical) :: schedule)) last after := by
        intro between next follows
        refine (inductionHypothesis follows.advances.coherent follows.live).mono ?_
        rintro _ after ⟨last, rfl, follows'⟩
        exact ⟨last, rfl, follows.trans follows'⟩
      refine (gives_bind _ _ _).mpr ((coherent.derivative_follows live).mono ?_)
      rintro _ between ⟨next, rfl, follows⟩
      cases canonical with
      | false => exact goesOn follows
      | true =>
          refine (gives_bind _ _ _).mpr ((follows.advances.coherent.canonicalize follows.live.inside).mono ?_)
          rintro value later ⟨normalizes, isCounted⟩
          exact goesOn (follows.normalize normalizes (isCounted (.inr follows.live.counted)))

end Coherent

/-- Membership of a text in a language that does not depend on cycles. -/
theorem Coherent.accepts_eq (coherent : grammar.Coherent) (live : grammar.Live id)
    (passes : 1 ≤ grammar.config.simplify.maxPasses) {lang : Language Char}
    (denotes : grammar.arena.Denotes id lang) {accepted : Bool} (text : List Char)
    (isRight : accepted = true ↔ text ∈ lang) :
    (Grammar.accepts (.expr id) (String.ofList text) grammar).1 = .ok accepted := by
  obtain ⟨_, decides⟩ := coherent.accepts live.inside (String.ofList text)
  obtain ⟨accepted', answered, decided⟩ := decides live.defined passes
  have decided := decided .structural ⟨nofun, nofun⟩ lang denotes
  rw [String.toList_ofList, ← isRight] at decided
  rw [answered, Bool.eq_iff_iff.mpr decided]

/-- Deriving by hand agrees with membership, whichever residuals are brought into their canonical
form on the way, and whether membership is asked for before or afterwards. -/
theorem nullable_residual_eq_accepts (reachable : grammar.Reachable)
    (inside : id.number < grammar.arena.size) (passes : 1 ≤ grammar.config.simplify.maxPasses)
    (acyclic : grammar.arena.Acyclic id) (defined : grammar.arena.Defined id)
    (counted : grammar.arena.Counted id) (schedule : List (Char × Bool)) :
    Gives (residual schedule id) grammar fun result after =>
      ∃ last accepted, result = .ok last ∧ (nullable last after).1 = accepted ∧
        (accepts (.expr id) (String.ofList (scheduledText schedule)) grammar).1 = .ok accepted ∧
        (accepts (.expr id) (String.ofList (scheduledText schedule)) (nullable last after).2).1 =
          .ok accepted := by
  have coherent := reachable.coherent
  have live : grammar.Live id := ⟨inside, counted, defined⟩
  obtain ⟨lang, denotes⟩ := coherent.wellFormed.exists_denotes acyclic
  refine (coherent.residual live schedule).mono ?_
  rintro _ after ⟨last, rfl, follows⟩
  have coherent' := follows.advances.coherent
  obtain ⟨advances, _, isNullable, _⟩ := (coherent'.yields_nullable follows.live.inside).settle false
  have leaves := follows.leaves.means .structural ⟨nofun, nofun⟩ lang denotes
  have isRight : (nullable last after).1 = true ↔ scheduledText schedule ∈ lang := by
    have isEmpty := isNullable.exact .structural nofun _ leaves
    rwa [Language.mem_leftQuotient, List.append_nil] at isEmpty
  have onward : grammar.Advances (nullable last after).2 := follows.advances.trans advances
  have denotes' : (nullable last after).2.arena.Denotes id lang :=
    (onward.extending.means_iff coherent.wellFormed onward.coherent.wellFormed inside).mpr
      (show grammar.arena.Means .structural id lang from denotes)
  have passes' : 1 ≤ (nullable last after).2.config.simplify.maxPasses := by
    rwa [onward.config]
  exact ⟨last, _, rfl, rfl, coherent.accepts_eq live passes denotes _ isRight,
    onward.coherent.accepts_eq (live.advance coherent onward) passes' denotes' _ isRight⟩

/-- The text `ab` and the complement of `a`, with the first residual in canonical form. -/
theorem nullable_residual_eq_accepts_complement :
    complementOfChar.arena.Counted ⟨4⟩ ∧
    Gives (residual [('a', true), ('b', false)] ⟨4⟩) complementOfChar fun result after =>
      ∃ last accepted, result = .ok last ∧ (nullable last after).1 = accepted ∧
        (accepts (.expr ⟨4⟩) "ab" complementOfChar).1 = .ok accepted := by
  have counted : complementOfChar.arena.Counted ⟨4⟩ :=
    Arena.throughout_of_forall (by decide) (by decide)
  refine ⟨counted, ?_⟩
  refine (nullable_residual_eq_accepts complementOfChar_reachable (by decide) (by decide)
    complementOfChar_acyclic (Arena.defined_of_forall (by decide)) counted
    [('a', true), ('b', false)]).mono ?_
  rintro result after ⟨last, accepted, isResult, isNullable, isAccepted, _⟩
  exact ⟨last, accepted, isResult, isNullable, isAccepted⟩

/-! ## Repetitions of count zero -/

/-- The derivative of what is never repeated is `ε`. -/
theorem Coherent.derivative_never (coherent : grammar.Coherent)
    (inside : id.number < grammar.arena.size) (defined : grammar.arena.Defined id) {lang : ExprId}
    (never : grammar.arena.get id = .rep lang (.finite 0))
    (fresh : grammar.tables.derivatives.settled[(⟨grammar.arena.resolve id, c⟩ : Derivation)]? =
      none) :
    Gives (Grammar.derivative id c) grammar fun result _ => result = .ok .empty := by
  have wellFormed := coherent.wellFormed
  have isUnknown : grammar.tables.derivatives.lookup ⟨grammar.arena.resolve id, c⟩ = .unknown := by
    unfold Table.lookup
    rw [fresh, coherent.derivatives.idle]
  have notInUse : grammar.tables.derivatives.inUse = false :=
    Table.not_inUse_iff.mpr coherent.derivatives.idle
  have immediate : ∀ (recur : Derivation → Eval Grammar ExprId) (state : Grammar),
      state.arena = grammar.arena.reserve.2 →
      (derivativeStep recur ⟨grammar.arena.resolve id, c⟩).Yields state fun answer after =>
        answer = .empty ∧ after = state := by
    intro recur state isReserved
    have sameGet : state.get (grammar.arena.resolve id) = .rep lang (.finite 0) := by
      rw [Grammar.get, isReserved, (Arena.extends_reserve _).get wellFormed
        (wellFormed.resolve_lt inside), wellFormed.get_resolve, never]
    unfold derivativeStep
    simp only [yields_bind, yields_get, sameGet, yields_pure, and_self]
  have derived : (computeDerivative id c).Yields grammar fun answer after =>
      answer = .empty ∧ after.fault = none := by
    unfold computeDerivative
    simp only [yields_bind, yields_get]
    refine (yields_transformation_at_once (derivation_isField grammar c True) isUnknown notInUse
      coherent.derivatives.singlePass immediate _).mono ?_
    rintro answer after ⟨isEmpty, sameFault, _⟩
    exact ⟨isEmpty, sameFault.trans coherent.fault⟩
  refine (gives_bind _ _ _).mpr ((gives_get _).mpr ?_)
  rw [coherent.undefined?_eq_none defined]
  refine (gives_bind _ _ _).mpr ((derived.settle .nil).mono ?_)
  rintro _ after ⟨rfl, noFault⟩
  refine (gives_bind _ _ _).mpr ((gives_get _).mpr ?_)
  rw [noFault]
  rfl

/-- The grammar of `a` repeated zero times, which is the expression with the number four. -/
def neverRepeated : Grammar :=
  (rep (.char 'a') (.finite 0) (ofConfig {})).2

theorem neverRepeated_reachable : neverRepeated.Reachable :=
  ⟨{}, .call (.rep (.char 'a') (.finite 0)) .refl nofun⟩

/-- A count of zero, or none at all, is what `Arena.Counted` excludes.  With a count of zero the
derivative by any character contains the empty string, and no text of one character is accepted. -/
theorem nullable_residual_never : neverRepeated.Reachable ∧ neverRepeated.config = {} ∧
    neverRepeated.arena.get ⟨4⟩ = .rep ⟨3⟩ (.finite 0) ∧ neverRepeated.arena.get ⟨3⟩ = .char 'a' ∧
    neverRepeated.arena.Acyclic ⟨4⟩ ∧ neverRepeated.arena.Defined ⟨4⟩ ∧
    (Gives (residual [('c', false)] ⟨4⟩) neverRepeated fun result after =>
      ∃ last, result = .ok last ∧ (nullable last after).1 = true) ∧
    (accepts (.expr ⟨4⟩) "c" neverRepeated).1 = .ok false := by
  have coherent := neverRepeated_reachable.coherent
  have denotes : neverRepeated.arena.Denotes ⟨4⟩ 1 :=
    .intro (fun _ => {['a']}) fun operand member => by
      obtain rfl : operand = ⟨3⟩ := List.mem_singleton.mp member
      exact .intro (fun _ => 0) nofun
  have acyclic := coherent.wellFormed.acyclic_of_denotes denotes
  have inside : (⟨4⟩ : ExprId).number < neverRepeated.arena.size := by decide
  have defined : neverRepeated.arena.Defined ⟨4⟩ := Arena.defined_of_forall (by decide)
  refine ⟨neverRepeated_reachable, rfl, rfl, rfl, acyclic, defined, ?_, ?_⟩
  · have fresh : neverRepeated.tables.derivatives.settled[(⟨⟨4⟩, 'c'⟩ : Derivation)]? = none :=
      Table.settled_empty _ _
    refine (gives_bind _ _ _).mpr (((coherent.derivative inside).and
      (coherent.derivative_never inside defined rfl fresh)).mono ?_)
    rintro _ after ⟨⟨advances, _⟩, rfl⟩
    refine ⟨.empty, rfl, ?_⟩
    have coherent' := advances.coherent
    obtain ⟨_, _, isNullable, _⟩ :=
      (coherent'.yields_nullable coherent'.wellFormed.empty_lt_size).settle false
    exact (isNullable.exact .structural nofun _
      (coherent'.wellFormed.means_empty .structural)).mpr rfl
  · obtain ⟨_, decides⟩ := coherent.accepts inside "c"
    obtain ⟨accepted, answered, decided⟩ := decides defined (by decide)
    have decided := decided .structural ⟨nofun, nofun⟩ _ denotes
    rw [answered]
    cases accepted with
    | false => rfl
    | true => exact absurd ((Language.mem_one _).mp (decided.mp rfl)) (by decide)

end Residual.Grammar
