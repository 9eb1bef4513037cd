import Residual.Proofs.Grammar.Correctness
import Residual.Proofs.Grammar.Derivative.Parallel

/-!
# Failed derivations leave no trace

A derivation fails exactly if an infinite repetition is exposed.  It forgets the derivatives that
were made before, and later ones have other numbers than they would have had without the failure.
But they are the same expressions, so that questions about the same expression have the same answer
in any two grammars, whatever failed before in one of them.

Where texts are read without simplification this is shown for each derivation on the way; where there
is simplification the answer is the right one in both grammars.
-/

set_option autoImplicit false

namespace Residual.Grammar

open Memo

variable {grammar before after before' after' begun between last : Grammar} {id x y : ExprId}
  {c : Char} {text : List Char} {sense : Sense}

/-! ## Side by side -/

/-- The same expression in two grammars, with a language in a given sense. -/
structure Parallel (before after : Grammar) (sense : Sense) (x y : ExprId) : Prop where
  coherent : before.Coherent
  coherent' : after.Coherent
  follow : before.DerivativesFollow
  follow' : after.DerivativesFollow
  inside : x.number < before.arena.size
  inside' : y.number < after.arena.size
  mirrors : before.arena.Mirrors after.arena x y
  means : ∃ lang, before.arena.Means sense x lang

/-- Both derivations failed, or both derivatives are the same expression. -/
inductive Alike (before after : Grammar) (sense : Sense) :
    Except Error ExprId → Except Error ExprId → Prop where
  | failure : Alike before after sense (.error .unboundedRepetition) (.error .unboundedRepetition)
  | success {d d' : ExprId} : before.Parallel after sense d d' →
      Alike before after sense (.ok d) (.ok d')

namespace Parallel

variable (parallel : before.Parallel after sense x y)

include parallel

theorem advance (advances : before.Advances before') (follow : before'.DerivativesFollow)
    (advances' : after.Advances after') (follow' : after'.DerivativesFollow) :
    before'.Parallel after' sense x y where
  coherent := advances.coherent
  coherent' := advances'.coherent
  follow := follow
  follow' := follow'
  inside := advances.lt_size parallel.inside
  inside' := advances'.lt_size parallel.inside'
  mirrors := parallel.mirrors.extends advances.extending advances'.extending
    parallel.coherent.wellFormed parallel.coherent'.wellFormed parallel.inside parallel.inside'
  means := by
    obtain ⟨lang, means⟩ := parallel.means
    exact ⟨lang, (advances.extending.means_iff parallel.coherent.wellFormed
      advances.coherent.wellFormed parallel.inside).mpr means⟩

theorem speaks : ∃ lang, before.arena.Speaks x lang ∧ after.arena.Speaks y lang := by
  obtain ⟨lang, means⟩ := parallel.means
  have speaks := parallel.coherent.wellFormed.speaks_of_means means
  exact ⟨lang, speaks,
    parallel.mirrors.speaks parallel.coherent.wellFormed parallel.coherent'.wellFormed speaks⟩

theorem isNullable_eq {isEmpty isEmpty' : Bool} {senses senses' : Sense → Prop}
    (isNullable : before.arena.IsNullable senses x isEmpty)
    (isNullable' : after.arena.IsNullable senses' y isEmpty') (trusted : senses sense)
    (trusted' : senses' sense) : isEmpty = isEmpty' := by
  obtain ⟨lang, means⟩ := parallel.means
  have means' := parallel.mirrors.means parallel.coherent.wellFormed parallel.coherent'.wellFormed
    means
  exact Bool.eq_iff_iff.mpr ((isNullable.exact sense trusted lang means).trans
    (isNullable'.exact sense trusted' lang means').symm)

theorem get_eq_nil_iff : before.arena.get x = .nil ↔ after.arena.get y = .nil := by
  have related := parallel.mirrors.related_get
  constructor <;> intro isNil <;> rw [isNil] at related
  · generalize after.arena.get y = e at related
    cases related
    rfl
  · generalize before.arena.get x = e at related
    cases related
    rfl

/-- The derivatives fail together, and else they are the same expression. -/
theorem alike {result result' : Except Error ExprId}
    (differentiates : before.Differentiates x c result before')
    (differentiates' : after.Differentiates y c result' after')
    (trusted : before'.tables.nullability.Trusts sense)
    (trusted' : after'.tables.nullability.Trusts sense) :
    before'.Alike after' sense result result' := by
  have parallel := parallel.advance differentiates.advances differentiates.follow
    differentiates'.advances differentiates'.follow
  have wellFormed := parallel.coherent.wellFormed
  have wellFormed' := parallel.coherent'.wellFormed
  have mirrors := parallel.mirrors
  obtain ⟨lang, means⟩ := parallel.means
  have outcome := differentiates.outcome ⟨sense, trusted, lang, means⟩
  have outcome' := differentiates'.outcome
    ⟨sense, trusted', lang, mirrors.means wellFormed wellFormed' means⟩
  cases outcome with
  | failure exposes =>
      cases outcome' with
      | failure _ => exact .failure
      | success notExposed _ =>
          exact absurd (mirrors.exposesUnbounded wellFormed wellFormed' exposes) notExposed
  | @success d notExposed knows =>
      cases outcome' with
      | failure exposes =>
          exact absurd (mirrors.symm.exposesUnbounded wellFormed' wellFormed exposes) notExposed
      | @success d' _ knows' =>
          exact .success
            { parallel with
              inside := differentiates.inside rfl
              inside' := differentiates'.inside rfl
              mirrors := mirrors_derivatives wellFormed wellFormed' parallel.follow
                parallel.follow' trusted trusted' mirrors means knows knows'
              means := parallel.coherent.exists_means_derivative parallel.follow means knows }

end Parallel

/-! ## Texts without simplification -/

/-- What reading a text leads to where nothing is simplified. -/
inductive Leads : Grammar → ExprId → List Char → Except Error Consumption → Grammar → Prop where
  | done (grammar : Grammar) (id : ExprId) : Leads grammar id [] (.ok (.residual id)) grammar
  | rejected {grammar : Grammar} {id : ExprId} (c : Char) (rest : List Char) (offset : Nat) :
      grammar.arena.get id = .nil → Leads grammar id (c :: rest) (.ok (.rejected offset)) grammar
  | failure {before after : Grammar} {id : ExprId} {c : Char} (rest : List Char) {error : Error} :
      before.arena.get id ≠ .nil → before.Differentiates id c (.error error) after →
      Leads before id (c :: rest) (.error error) after
  | step {before between begun last : Grammar} {id next : ExprId} {c : Char} {rest : List Char}
      {result : Except Error Consumption} :
      before.arena.get id ≠ .nil → before.Differentiates id c (.ok next) between →
      between.Advances begun → begun.DerivativesFollow → Leads begun next rest result last →
      Leads before id (c :: rest) result last

theorem Leads.advances {result : Except Error Consumption} (leads : before.Leads id text result after)
    (coherent : before.Coherent) : before.Advances after := by
  induction leads with
  | done | rejected => exact coherent.advances_refl
  | failure _ _ differentiates => exact differentiates.advances
  | step _ differentiates advances _ _ inductionHypothesis =>
      exact differentiates.advances.trans (advances.trans (inductionHypothesis advances.coherent))

theorem Leads.inside {residual : ExprId}
    (leads : before.Leads id text (.ok (.residual residual)) after)
    (inside : id.number < before.arena.size) : residual.number < after.arena.size := by
  generalize isResult : (.ok (.residual residual) : Except Error Consumption) = result at leads
  induction leads with
  | done =>
      cases isResult
      exact inside
  | rejected | failure => cases isResult
  | step _ differentiates advances _ _ inductionHypothesis =>
      exact inductionHypothesis (advances.lt_size (differentiates.inside rfl)) isResult

/-- The residuals of a text are the same expression, if it is neither rejected nor an error. -/
inductive SameResidual (before after : Grammar) (sense : Sense) :
    Except Error Consumption → Except Error Consumption → Prop where
  | failure (error : Error) : SameResidual before after sense (.error error) (.error error)
  | rejected (offset offset' : Nat) :
      SameResidual before after sense (.ok (.rejected offset)) (.ok (.rejected offset'))
  | residual {d d' : ExprId} : before.Parallel after sense d d' →
      SameResidual before after sense (.ok (.residual d)) (.ok (.residual d'))

theorem Parallel.leads {result result' : Except Error Consumption}
    (parallel : before.Parallel after sense x y) (leads : before.Leads x text result before')
    (leads' : after.Leads y text result' after')
    (trusted : before'.tables.nullability.Trusts sense)
    (trusted' : after'.tables.nullability.Trusts sense) :
    before'.SameResidual after' sense result result' := by
  induction leads generalizing after y with
  | done =>
      cases leads'
      exact .residual parallel
  | rejected _ _ _ isNil =>
      cases leads' with
      | rejected _ _ _ _ => exact .rejected _ _
      | failure _ notNil _ | step notNil _ _ _ _ =>
          exact absurd (parallel.get_eq_nil_iff.mp isNil) notNil
  | failure _ notNil differentiates =>
      cases leads' with
      | rejected _ _ _ isNil => exact absurd (parallel.get_eq_nil_iff.mpr isNil) notNil
      | failure _ _ differentiates' =>
          cases parallel.alike differentiates differentiates' trusted trusted' with
          | failure => exact .failure _
      | step _ differentiates' advances _ leads' =>
          have onward := advances.trans (leads'.advances advances.coherent)
          cases parallel.alike differentiates differentiates' trusted
            (trusted'.of_later onward.nullabilityTruncated)
  | step notNil differentiates advances follow leads inductionHypothesis =>
      have onward := advances.trans (leads.advances advances.coherent)
      have trusted'' := trusted.of_later onward.nullabilityTruncated
      cases leads' with
      | rejected _ _ _ isNil => exact absurd (parallel.get_eq_nil_iff.mpr isNil) notNil
      | failure _ _ differentiates' =>
          cases parallel.alike differentiates differentiates' trusted'' trusted'
      | step _ differentiates' advances' follow' leads' =>
          have onward' := advances'.trans (leads'.advances advances'.coherent)
          cases parallel.alike differentiates differentiates' trusted''
            (trusted'.of_later onward'.nullabilityTruncated) with
          | success parallel =>
              exact inductionHypothesis (parallel.advance advances follow advances' follow') leads'
                trusted

/-- How membership is decided by what a text led to. -/
inductive Verdict (between after : Grammar) :
    Except Error Consumption → Except Error Bool → Prop where
  | failure (error : Error) : Verdict between after (.error error) (.error error)
  | rejected (offset : Nat) : Verdict between after (.ok (.rejected offset)) (.ok false)
  | decided {residual : ExprId} {accepted : Bool} :
      between.arena.IsNullable after.tables.nullability.Trusts residual accepted →
      Verdict between after (.ok (.residual residual)) (.ok accepted)

/-- Membership was decided by reading the text, without simplification. -/
def Concludes (before : Grammar) (id : ExprId) (text : List Char) (result : Except Error Bool)
    (after : Grammar) : Prop :=
  ∃ begun between reading, before.Advances begun ∧ begun.DerivativesFollow ∧
    begun.Leads id text reading between ∧ between.Advances after ∧ between.Verdict after reading result

/-- Membership of the same expression is decided in the same way. -/
theorem Parallel.concludes {result result' : Except Error Bool}
    (parallel : before.Parallel after sense x y) (concludes : before.Concludes x text result before')
    (concludes' : after.Concludes y text result' after')
    (trusted : before'.tables.nullability.Trusts sense)
    (trusted' : after'.tables.nullability.Trusts sense) : result = result' := by
  obtain ⟨begun, between, reading, advances, follow, leads, onward, verdict⟩ := concludes
  obtain ⟨begun', between', reading', advances', follow', leads', onward', verdict'⟩ := concludes'
  have same := (parallel.advance advances follow advances' follow').leads leads leads'
    (trusted.of_later onward.nullabilityTruncated) (trusted'.of_later onward'.nullabilityTruncated)
  cases same with
  | failure =>
      cases verdict
      cases verdict'
      rfl
  | rejected =>
      cases verdict
      cases verdict'
      rfl
  | residual parallel =>
      cases verdict with
      | decided isNullable =>
          cases verdict' with
          | decided isNullable' =>
              rw [parallel.isNullable_eq isNullable isNullable' trusted trusted']

/-- Without passes there is nothing to simplify. -/
theorem canonicalize_of_noPasses (noPasses : grammar.config.simplify.maxPasses = 0) :
    Gives (canonicalize id) grammar fun value after =>
      value = id ∧ ∃ journal, after = { grammar with journal } := by
  refine (gives_bind _ _ _).mpr ((gives_get _).mpr ?_)
  rw [noPasses]
  exact ⟨rfl, _, rfl⟩

namespace Coherent

variable (coherent : grammar.Coherent) (follow : grammar.DerivativesFollow)
  (inside : id.number < grammar.arena.size) (noPasses : grammar.config.simplify.maxPasses = 0)

include coherent follow

theorem derivativesFollow_journal (journal : Journal) :
    { grammar with journal }.DerivativesFollow :=
  (Transition.widen (coherent.widens_journal journal)).derivativesFollow coherent follow

include inside noPasses

theorem consume_leads (offset : Nat) : Gives (Grammar.consume id offset text) grammar
    fun result after => grammar.Leads id text result after := by
  induction text generalizing grammar id offset with
  | nil => exact .done grammar id
  | cons c rest inductionHypothesis =>
      unfold Grammar.consume
      refine (gives_bind _ _ _).mpr ((gives_get _).mpr ?_)
      split
      case isTrue isNil => exact (gives_pure _ _).mpr (.rejected c rest offset isNil)
      case isFalse notNil =>
        refine (gives_bind _ _ _).mpr ((coherent.deriveDefined_differentiates follow inside).mono ?_)
        rintro (error | next) between differentiates
        · exact (gives_pure _ _).mpr (.failure rest notNil differentiates)
        · have nextInside := differentiates.inside rfl
          have onward : ∀ {begun : Grammar}, between.Advances begun → begun.DerivativesFollow →
              Gives (do
                if (← get).journal.recording then
                  let rendering ← Grammar.render next
                  modify (note (.residual c offset rendering))
                Grammar.consume next (offset + c.utf8Size) rest) begun
                fun result after => grammar.Leads id (c :: rest) result after := by
            intro begun advances follow
            refine advances.coherent.gives_reported_transitions (advances.lt_size nextInside) .refl ?_
            intro after transitions advances'
            have follow := (advances.coherent.transitions_keep transitions
              (fun coherent transition => transition.derivativesFollow coherent) follow).2
            have advances := advances.trans advances'
            refine (inductionHypothesis advances.coherent follow (advances.lt_size nextInside) ?_
              _).mono fun result last leads => .step notNil differentiates advances follow leads
            rw [advances.config, differentiates.advances.config, noPasses]
          have coherent := differentiates.advances.coherent
          refine (gives_bind _ _ _).mpr ((gives_get _).mpr ?_)
          split
          · refine (gives_bind _ _ _).mpr ((canonicalize_of_noPasses
              (by rw [differentiates.advances.config, noPasses])).mono ?_)
            rintro _ _ ⟨rfl, journal, rfl⟩
            exact onward (coherent.advances_journal journal)
              (coherent.derivativesFollow_journal differentiates.follow journal)
          · exact onward coherent.advances_refl differentiates.follow

theorem accepts_concludes (defined : grammar.arena.Defined id) (text : String) :
    Gives (Grammar.accepts (.expr id) text) grammar fun result after =>
      grammar.Concludes id text.toList result after := by
  refine (gives_bind _ _ _).mpr ((gives_pure _ _).mpr ?_)
  refine (gives_bind _ _ _).mpr ((gives_get _).mpr ?_)
  rw [coherent.undefined?_eq_none defined]
  refine (gives_bind _ _ _).mpr ((canonicalize_of_noPasses noPasses).mono ?_)
  rintro start _ ⟨rfl, journal, rfl⟩
  have begun := coherent.advances_journal journal
  have follow := coherent.derivativesFollow_journal follow journal
  refine (gives_bind _ _ _).mpr ((begun.coherent.consume_leads follow inside noPasses 0).mono ?_)
  rintro reading between leads
  have advances := leads.advances begun.coherent
  have coherent := advances.coherent
  match reading with
  | .error error =>
      exact (gives_pure _ _).mpr ⟨_, _, _, begun, follow, leads, coherent.advances_refl, .failure _⟩
  | .ok (.rejected offset) =>
      exact ⟨_, _, _, begun, follow, leads, coherent.advances_journal _, .rejected _⟩
  | .ok (.residual residual) =>
      have residualInside := leads.inside inside
      have decided : ∀ journal, Gives (do
          let accepted ← nullable residual
          modify (note (.decided start text accepted))
          return .ok accepted) { between with journal } fun result after =>
            grammar.Concludes start text.toList result after := by
        intro journal
        have noted := coherent.advances_journal journal
        refine (gives_bind _ _ _).mpr
          (((noted.coherent.yields_nullable residualInside).settle false).mono ?_)
        rintro accepted after ⟨advances, _, isNullable, _⟩
        exact ⟨_, _, _, begun, follow, leads,
          noted.trans (advances.trans (advances.coherent.advances_journal _)), .decided isNullable⟩
      refine (gives_bind _ _ _).mpr ((gives_get _).mpr ?_)
      split
      · exact decided between.journal
      · refine (gives_bind _ _ _).mpr ((canonicalize_of_noPasses
          (by rw [advances.config, begun.config, noPasses])).mono ?_)
        rintro _ _ ⟨rfl, journal, rfl⟩
        exact decided journal

end Coherent

/-! ## Answers in two grammars -/

/-- Both derivations failed, or both derivatives are the same expression and have the same
language. -/
inductive SameDerivative (before after : Grammar) :
    Except Error ExprId → Except Error ExprId → Prop where
  | failure (error : Error) : SameDerivative before after (.error error) (.error error)
  | success {d d' : ExprId} {lang : Language Char} : before.arena.Mirrors after.arena d d' →
      before.arena.Speaks d lang → after.arena.Speaks d' lang →
      SameDerivative before after (.ok d) (.ok d')

theorem Alike.sameDerivative {result result' : Except Error ExprId}
    (alike : before.Alike after sense result result') : before.SameDerivative after result result' := by
  cases alike with
  | failure => exact .failure _
  | success parallel =>
      obtain ⟨lang, speaks, speaks'⟩ := parallel.speaks
      exact .success parallel.mirrors speaks speaks'

/-- Questions about the expressions have the same answer in both grammars, as long as no table ran
out of passes where there are cycles. -/
structure SameAnswers (before after : Grammar) (x y : ExprId) : Prop where
  nullable : before.arena.Acyclic x ∨ before.arena.ComplementFree x ∧
      (Grammar.nullable x before).2.tables.nullability.truncated = false ∧
      (Grammar.nullable y after).2.tables.nullability.truncated = false →
    (Grammar.nullable x before).1 = (Grammar.nullable y after).1
  derivative : ∀ c, before.arena.Acyclic x ∨ before.arena.ComplementFree x ∧
      (Grammar.derivative x c before).2.tables.nullability.truncated = false ∧
      (Grammar.derivative y c after).2.tables.nullability.truncated = false →
    SameDerivative (Grammar.derivative x c before).2 (Grammar.derivative y c after).2
      (Grammar.derivative x c before).1 (Grammar.derivative y c after).1
  accepts : ∀ text, before.arena.Acyclic x ∨ before.arena.ComplementFree x ∧
      (Grammar.accepts (.expr x) text before).2.Complete ∧
      (Grammar.accepts (.expr y) text after).2.Complete →
    (Grammar.accepts (.expr x) text before).1 = (Grammar.accepts (.expr y) text after).1

/-- The same expression in two grammars has the same answers. -/
theorem Reachable.sameAnswers (reachable : before.Reachable) (reachable' : after.Reachable)
    (config : before.config = after.config) (inside : x.number < before.arena.size)
    (inside' : y.number < after.arena.size) (defined : before.arena.Defined x)
    (defined' : after.arena.Defined y) (mirrors : before.arena.Mirrors after.arena x y) :
    before.SameAnswers after x y := by
  have coherent := reachable.coherent
  have coherent' := reachable'.coherent
  have follow := reachable.derivativesFollow
  have follow' := reachable'.derivativesFollow
  have parallel : ∀ {reliable : Prop}, before.arena.Acyclic x ∨ before.arena.ComplementFree x ∧ reliable →
      ∃ sense, (sense = .least → reliable) ∧ before.Parallel after sense x y := by
    rintro reliable (acyclic | ⟨free, reliable⟩)
    · exact ⟨.structural, nofun, coherent, coherent', follow, follow', inside, inside', mirrors,
        coherent.wellFormed.exists_denotes acyclic⟩
    · exact ⟨.least, fun _ => reliable, coherent, coherent', follow, follow', inside, inside', mirrors,
        _, free, rfl⟩
  refine ⟨fun kind => ?_, fun c kind => ?_, fun text kind => ?_⟩
  · obtain ⟨sense, reliable, parallel⟩ := parallel kind
    obtain ⟨_, _, isNullable, _⟩ := (coherent.yields_nullable inside).settle false
    obtain ⟨_, _, isNullable', _⟩ := (coherent'.yields_nullable inside').settle false
    exact parallel.isNullable_eq isNullable isNullable' (fun isLeast => (reliable isLeast).1)
      fun isLeast => (reliable isLeast).2
  · obtain ⟨sense, reliable, parallel⟩ := parallel kind
    have differentiates : before.Differentiates x c _ _ :=
      coherent.derivative_differentiates follow inside defined
    have differentiates' : after.Differentiates y c _ _ :=
      coherent'.derivative_differentiates follow' inside' defined'
    exact (parallel.alike differentiates differentiates' (fun isLeast => (reliable isLeast).1)
      fun isLeast => (reliable isLeast).2).sameDerivative
  · obtain ⟨sense, reliable, parallel⟩ := parallel kind
    rcases Nat.eq_zero_or_pos before.config.simplify.maxPasses with noPasses | passes
    · exact parallel.concludes (coherent.accepts_concludes follow inside noPasses defined text)
        (coherent'.accepts_concludes follow' inside' (config ▸ noPasses) defined' text)
        (fun isLeast => (reliable isLeast).1.nullability)
        fun isLeast => (reliable isLeast).2.nullability
    · -- both answers are right
      obtain ⟨_, answers⟩ := coherent.accepts inside text
      obtain ⟨_, answers'⟩ := coherent'.accepts inside' text
      obtain ⟨accepted, isResult, isRight⟩ := answers defined passes
      obtain ⟨accepted', isResult', isRight'⟩ := answers' defined' (config ▸ passes)
      obtain ⟨lang, means⟩ := parallel.means
      have means' := mirrors.means coherent.wellFormed coherent'.wellFormed means
      rw [isResult, isResult', Bool.eq_iff_iff.mpr ((isRight sense
        ⟨fun isLeast => (reliable isLeast).1.nullability,
          fun isLeast => (reliable isLeast).1.equalities⟩ lang means).trans (isRight' sense
        ⟨fun isLeast => (reliable isLeast).2.nullability,
          fun isLeast => (reliable isLeast).2.equalities⟩ lang means').symm)]

end Residual.Grammar
