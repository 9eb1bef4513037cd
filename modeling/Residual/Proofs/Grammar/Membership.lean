import Residual.Proofs.Grammar.Derivative.Answers
import Residual.Proofs.Grammar.NormalForm.Canonical

/-!
# Deciding membership

The derivatives of an expression by the characters of a text mean what its language leaves of the
text.  They are the left quotient of the language, and after an early rejection that is empty.

Tables that ran out of passes can only take strings away, so that a text is accepted rightly even
then.
-/

set_option autoImplicit false

namespace Residual.Grammar

open Memo Interpretation

variable {grammar before after : Grammar} {id value : ExprId} {offset : Nat} {text : List Char}

/-- What the tables say about cycles can be relied on in this sense. -/
def Trusts (grammar : Grammar) (sense : Sense) : Prop :=
  grammar.tables.nullability.Trusts sense ∧ grammar.tables.equalities.Trusts sense

theorem Complete.trusts (complete : grammar.Complete) (sense : Sense) : grammar.Trusts sense :=
  ⟨fun _ => complete.nullability, fun _ => complete.equalities⟩

theorem Advances.trusts (advances : before.Advances after) {sense : Sense}
    (trusted : after.Trusts sense) : before.Trusts sense :=
  ⟨trusted.1.of_later advances.nullabilityTruncated,
    trusted.2.of_later advances.equalitiesTruncated⟩

/-- The expression can be derived again and again. -/
structure Live (grammar : Grammar) (id : ExprId) : Prop where
  inside : id.number < grammar.arena.size
  counted : grammar.arena.Counted id
  defined : grammar.arena.Defined id

theorem Live.advance (live : before.Live id) (coherent : before.Coherent)
    (advances : before.Advances after) : after.Live id where
  inside := advances.lt_size live.inside
  counted := advances.counted coherent live.inside live.counted
  defined := (advances.extending.defined_iff coherent.wellFormed live.inside).mpr live.defined

/-- The derivative of an expression can be derived in turn. -/
theorem Live.derive {c : Char} (live : before.Live id) (coherent : before.Coherent)
    (derives : before.Derives id c (.ok value) after) : after.Live value := by
  obtain ⟨inside, isDerivative⟩ := derives.isDerivative rfl
  have counted := derives.advances.counted coherent live.inside live.counted
  exact
    { inside := inside
      counted := isDerivative.counted _ (.refl _) derives.advances.coherent.wellFormed counted
      defined := derives.defined coherent live.inside live.counted live.defined rfl }

/-- So can a form of it that was brought in by simplification. -/
theorem Live.normalize (live : before.Live id) (coherent : before.Coherent)
    (normalizes : before.Normalizes id value after) (counted : after.arena.Counted value) :
    after.Live value where
  inside := normalizes.inside
  counted := counted
  defined := normalizes.defined ((normalizes.advances.extending.defined_iff
    coherent.wellFormed live.inside).mpr live.defined)

/-- The second expression means what the language of the first one leaves of a text, or at most
that if the tables cannot be relied on. -/
structure Leaves (before : Grammar) (id : ExprId) (text : List Char) (value : ExprId)
    (after : Grammar) : Prop where
  means : ∀ sense, after.Trusts sense → ∀ lang, before.arena.Means sense id lang →
    after.arena.Means sense value (lang.leftQuotient text)
  atMost : before.arena.ComplementFree id → after.arena.ComplementFree value ∧
    words.least after.arena value ≤ (words.least before.arena id).leftQuotient text

/-- What is consumed of a text is consumed rightly. -/
inductive Consumes (before : Grammar) (id : ExprId) (text : List Char) :
    Consumption → Grammar → Prop where
  | residual {last : ExprId} {after : Grammar} : before.Leaves id text last after →
      Consumes before id text (.residual last) after
  | rejected {offset : Nat} {after : Grammar} :
      (∀ sense, after.Trusts sense → ∀ lang, before.arena.Means sense id lang → text ∉ lang) →
      Consumes before id text (.rejected offset) after

theorem Leaves.refl (grammar : Grammar) (id : ExprId) : grammar.Leaves id [] id grammar :=
  ⟨fun _ _ _ means => means, fun free => ⟨free, le_rfl⟩⟩

theorem Leaves.trans {between : Grammar} {rest : List Char} {last : ExprId}
    (leaves : before.Leaves id text value between) (advances : between.Advances after)
    (leaves' : between.Leaves value rest last after) :
    before.Leaves id (text ++ rest) last after where
  means sense trusted lang means := by
    rw [Language.leftQuotient_append]
    exact leaves'.means sense trusted _ (leaves.means sense (advances.trusts trusted) lang means)
  atMost free := by
    obtain ⟨free, atMost⟩ := leaves.atMost free
    obtain ⟨free, atMost'⟩ := leaves'.atMost free
    rw [Language.leftQuotient_append]
    exact ⟨free, atMost'.trans (Languages.quotient_mono atMost)⟩

theorem Leaves.advance {later : Grammar} (leaves : before.Leaves id text value after)
    (coherent : after.Coherent) (inside : value.number < after.arena.size)
    (advances : after.Advances later) : before.Leaves id text value later where
  means sense trusted lang means :=
    (advances.extending.means_iff coherent.wellFormed advances.coherent.wellFormed inside).mpr
      (leaves.means sense (advances.trusts trusted) lang means)
  atMost free := by
    obtain ⟨free, atMost⟩ := leaves.atMost free
    refine ⟨(advances.extending.throughout_iff coherent.wellFormed advances.coherent.wellFormed inside
      nofun).mpr free, ?_⟩
    rwa [words.least_extends advances.extending coherent.wellFormed inside]

theorem Leaves.normalize {later : Grammar} {value' : ExprId}
    (leaves : before.Leaves id text value after) (coherent : after.Coherent)
    (inside : value.number < after.arena.size) (normalizes : after.Normalizes value value' later) :
    before.Leaves id text value' later where
  means sense trusted lang means := by
    have advanced := (leaves.advance coherent inside normalizes.advances).means sense trusted lang
      means
    exact normalizes.keeps later.arena (.refl _) normalizes.advances.coherent.wellFormed sense
      trusted.2 _ advanced
  atMost free := by
    obtain ⟨free, atMost⟩ := (leaves.advance coherent inside normalizes.advances).atMost free
    obtain ⟨free, atMost'⟩ := normalizes.narrows later.arena (.refl _)
      normalizes.advances.coherent.wellFormed free
    exact ⟨free, atMost'.trans atMost⟩

theorem Leaves.derive {c : Char} {result : Except Error ExprId} (derives : before.Derives id c result after)
    (coherent : before.Coherent) (inside : id.number < before.arena.size)
    (isResult : result = .ok value) (counted : before.arena.Counted id) :
    before.Leaves id [c] value after := by
  have extending := derives.advances.extending
  have wellFormed := coherent.wellFormed
  have wellFormed' := derives.advances.coherent.wellFormed
  have counted := derives.advances.counted coherent inside counted
  obtain ⟨_, isDerivative⟩ := derives.isDerivative isResult
  refine ⟨fun sense trusted lang means => ?_, fun free => ?_⟩
  · exact isDerivative.means counted sense trusted.1 lang
      ((extending.means_iff wellFormed wellFormed' inside).mpr means)
  · have free := (extending.throughout_iff wellFormed wellFormed' inside nofun).mpr free
    rw [← words.least_extends extending wellFormed inside]
    exact ⟨isDerivative.complementFree _ (.refl _) wellFormed' free,
      isDerivative.atMost counted free⟩

/-- The grammar advances, and if repetitions have counts then the text is consumed rightly. -/
structure Consumed (before : Grammar) (id : ExprId) (text : List Char)
    (result : Except Error Consumption) (after : Grammar) : Prop where
  advances : before.Advances after
  inside : ∀ {last}, result = .ok (.residual last) → last.number < after.arena.size
  answers : before.arena.Counted id →
    ∃ consumption, result = .ok consumption ∧ before.Consumes id text consumption after

/-- First a part of the text and then the rest. -/
theorem Consumes.of_leaves {between : Grammar} {rest : List Char} {consumption : Consumption}
    (leaves : before.Leaves id text value between) (advances : between.Advances after)
    (consumes : between.Consumes value rest consumption after) :
    before.Consumes id (text ++ rest) consumption after := by
  cases consumes with
  | residual leaves' => exact .residual (leaves.trans advances leaves')
  | rejected notMem =>
      refine .rejected fun sense trusted lang means member => ?_
      exact notMem sense trusted _ (leaves.means sense (advances.trusts trusted) lang means) member

theorem Consumed.of_leaves {between : Grammar} {rest : List Char}
    {result : Except Error Consumption} (advances : before.Advances between)
    (counted : before.arena.Counted id → between.arena.Counted value ∧
      before.Leaves id text value between)
    (consumed : between.Consumed value rest result after) :
    before.Consumed id (text ++ rest) result after where
  advances := advances.trans consumed.advances
  inside := consumed.inside
  answers isCounted := by
    obtain ⟨counted, leaves⟩ := counted isCounted
    obtain ⟨consumption, isResult, consumes⟩ := consumed.answers counted
    exact ⟨consumption, isResult, consumes.of_leaves leaves consumed.advances⟩

namespace Coherent

variable (coherent : grammar.Coherent) (inside : id.number < grammar.arena.size)

include coherent inside

omit inside in
/-- What is seen as `∅` has no strings. -/
theorem notMem_of_get_eq_nil (isNil : grammar.get id = .nil) {sense : Sense} {lang : Language Char}
    (means : grammar.arena.Means sense id lang) (word : List Char) : word ∉ lang := by
  obtain ⟨_, L, _, rfl⟩ := coherent.wellFormed.means_operands means
  rw [show grammar.arena.get id = .nil from isNil]
  exact Language.notMem_zero word

/-- A rendering for the journal only advances the grammar. -/
theorem gives_reported {Answer : Type} {event : String → Event} {next : StateM Grammar Answer}
    {post : Answer → Grammar → Prop}
    (onward : ∀ {after : Grammar}, grammar.Advances after → Gives next after post) :
    Gives (do
      if (← get).journal.recording then
        let rendering ← Grammar.render id
        modify (note (event rendering))
      next) grammar post := by
  refine (gives_bind _ _ _).mpr ((gives_get _).mpr ?_)
  split
  · refine (gives_bind _ _ _).mpr ((coherent.render inside).mono fun rendering between advances => ?_)
    exact onward (advances.trans (advances.coherent.advances_journal _))
  · exact onward coherent.advances_refl

theorem consume (rest : List Char) (offset : Nat) :
    Gives (consume id offset rest) grammar (grammar.Consumed id rest) := by
  induction rest generalizing grammar id offset with
  | nil =>
      refine ⟨coherent.advances_refl, ?_, fun _ => ⟨_, rfl, .residual (.refl _ _)⟩⟩
      rintro _ ⟨⟩
      exact inside
  | cons c rest inductionHypothesis =>
      have onward : ∀ {between : Grammar} {value : ExprId}, grammar.Advances between →
          value.number < between.arena.size →
          (grammar.arena.Counted id → between.arena.Counted value ∧
            grammar.Leaves id [c] value between) →
          Gives (do
            if (← get).journal.recording then
              let rendering ← Grammar.render value
              modify (note (.residual c offset rendering))
            Grammar.consume value (offset + c.utf8Size) rest) between
            (grammar.Consumed id (c :: rest)) := by
        intro between value advances inside counted
        have coherent := advances.coherent
        refine coherent.gives_reported inside fun advances' => ?_
        refine (inductionHypothesis advances'.coherent (advances'.lt_size inside) _).mono ?_
        intro result after consumed
        change grammar.Consumed id ([c] ++ rest) result after
        refine consumed.of_leaves (advances.trans advances') fun isCounted => ?_
        obtain ⟨counted, leaves⟩ := counted isCounted
        exact ⟨advances'.counted coherent inside counted, leaves.advance coherent inside advances'⟩
      unfold Grammar.consume
      refine (gives_bind _ _ _).mpr ((gives_get _).mpr ?_)
      split
      · rename_i isNil
        refine (gives_pure _ _).mpr ⟨coherent.advances_refl, nofun, fun _ => ⟨_, rfl, .rejected ?_⟩⟩
        exact fun _ _ _ means => coherent.notMem_of_get_eq_nil isNil means _
      · refine (gives_bind _ _ _).mpr ((coherent.deriveDefined inside).mono ?_)
        rintro (error | next) between derives
        · refine (gives_pure _ _).mpr ⟨derives.advances, nofun, fun counted => ?_⟩
          obtain ⟨_, isResult⟩ := derives.answers counted
          cases isResult
        · obtain ⟨nextInside, isDerivative⟩ := derives.isDerivative rfl
          have coherent' := derives.advances.coherent
          have counted : grammar.arena.Counted id → between.arena.Counted next ∧
              grammar.Leaves id [c] next between := fun counted =>
            ⟨isDerivative.counted _ (.refl _) coherent'.wellFormed
              (derives.advances.counted coherent inside counted),
              .derive derives coherent inside rfl counted⟩
          refine (gives_bind _ _ _).mpr ((gives_get _).mpr ?_)
          split
          · refine (gives_bind _ _ _).mpr ((coherent'.canonicalize nextInside).mono ?_)
            rintro value between' ⟨normalizes, isCounted⟩
            refine onward (derives.advances.trans normalizes.advances) normalizes.inside
              fun wasCounted => ?_
            obtain ⟨counted, leaves⟩ := counted wasCounted
            exact ⟨isCounted (.inr counted), leaves.normalize coherent' nextInside normalizes⟩
          · exact onward derives.advances nextInside counted

end Coherent

/-! ## The decision -/

/-- The grammar advances, and if all references are defined and repetitions are simplified away then
the answer is right in every sense that can be relied on.  Acceptance is right in any case. -/
structure Decided (before : Grammar) (id : ExprId) (text : List Char) (result : Except Error Bool)
    (after : Grammar) : Prop where
  advances : before.Advances after
  answers : before.arena.Defined id → 0 < before.config.simplify.maxPasses →
    ∃ accepted, result = .ok accepted ∧ ∀ sense, after.Trusts sense → ∀ lang,
      before.arena.Means sense id lang → (accepted = true ↔ text ∈ lang)
  accepted : 0 < before.config.simplify.maxPasses → before.arena.ComplementFree id →
    result = .ok true → text ∈ words.least before.arena id

namespace Coherent

variable (coherent : grammar.Coherent)

include coherent

/-- The empty string of what is left of a text decides about the text. -/
theorem gives_decided (advances : before.Advances grammar) (inside : value.number < grammar.arena.size)
    (leaves : 0 < before.config.simplify.maxPasses → before.Leaves id text value grammar)
    (event : Bool → Event) :
    Gives (do
      let accepted ← nullable value
      modify (note (event accepted))
      return .ok accepted) grammar (before.Decided id text) := by
  refine (gives_bind _ _ _).mpr (((coherent.yields_nullable inside).settle false).mono ?_)
  rintro accepted between ⟨advances', _, isNullable, _⟩
  have noted := advances'.coherent.advances_journal
  refine ⟨advances.trans (advances'.trans (noted _)), fun _ passes => ⟨accepted, rfl, ?_⟩, ?_⟩
  · intro sense trusted lang means
    have trusted := (noted _).trusts trusted
    have means := (leaves passes).means sense (advances'.trusts trusted) lang means
    rw [isNullable.exact sense trusted.1 _ means, Language.mem_leftQuotient, List.append_nil]
  · rintro passes free ⟨⟩
    obtain ⟨free, atMost⟩ := (leaves passes).atMost free
    have member : text ++ [] ∈ words.least before.arena id := atMost (isNullable.bound rfl free)
    rwa [List.append_nil] at member

theorem accepts (inside : id.number < grammar.arena.size) (text : String) :
    Gives (accepts (.expr id) text) grammar (grammar.Decided id text.toList) := by
  refine (gives_bind _ _ _).mpr ((gives_pure _ _).mpr ?_)
  refine (gives_bind _ _ _).mpr ((gives_get _).mpr ?_)
  cases undefined : grammar.undefined? id with
  | some link =>
      refine ⟨coherent.advances_refl, fun defined => ?_, nofun⟩
      simp [coherent.undefined?_eq_none defined] at undefined
  | none =>
      refine (gives_bind _ _ _).mpr ((coherent.canonicalize inside).mono ?_)
      rintro start between ⟨normalizes, isCounted⟩
      have coherent' := normalizes.advances.coherent
      have started : grammar.Leaves id [] start between :=
        (Leaves.refl _ _).normalize coherent inside normalizes
      refine (gives_bind _ _ _).mpr ((coherent'.consume normalizes.inside _ 0).mono ?_)
      rintro result after ⟨advances, lastInside, answers⟩
      have onward := normalizes.advances.trans advances
      have coherent'' := advances.coherent
      have consumes : 0 < grammar.config.simplify.maxPasses →
          ∃ consumption, result = .ok consumption ∧
            grammar.Consumes id text.toList consumption after := by
        intro passes
        obtain ⟨consumption, isResult, consumes⟩ := answers (isCounted (.inl passes))
        exact ⟨consumption, isResult, consumes.of_leaves started advances⟩
      match result with
      | .error error =>
          refine (gives_pure _ _).mpr ⟨onward, fun _ passes => ?_, nofun⟩
          obtain ⟨_, isResult, _⟩ := consumes passes
          cases isResult
      | .ok (.rejected offset) =>
          have noted := coherent''.advances_journal
          refine ⟨onward.trans (noted _), fun _ passes => ⟨false, rfl, ?_⟩, nofun⟩
          intro sense trusted lang means
          obtain ⟨_, ⟨⟩, consumes⟩ := consumes passes
          cases consumes with
          | rejected notMem =>
              exact iff_of_false Bool.false_ne_true
                (notMem sense ((noted _).trusts trusted) lang means)
      | .ok (.residual last) =>
          have leaves : 0 < grammar.config.simplify.maxPasses →
              grammar.Leaves id text.toList last after := by
            intro passes
            obtain ⟨_, ⟨⟩, consumes⟩ := consumes passes
            cases consumes with
            | residual leaves => exact leaves
          have lastInside := lastInside rfl
          refine (gives_bind _ _ _).mpr ((gives_get _).mpr ?_)
          split
          · exact coherent''.gives_decided onward lastInside leaves _
          · refine (gives_bind _ _ _).mpr ((coherent''.canonicalize lastInside).mono ?_)
            rintro value later ⟨normalizes', _⟩
            refine normalizes'.advances.coherent.gives_decided
              (onward.trans normalizes'.advances) normalizes'.inside (fun passes => ?_) _
            exact (leaves passes).normalize coherent'' lastInside normalizes'

end Coherent

end Residual.Grammar
