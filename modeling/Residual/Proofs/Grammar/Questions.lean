import Residual.Proofs.Grammar.Constancy
import Residual.Proofs.Grammar.Totality

/-!
# Questions and their replies

All questions that a grammar answers about its expressions, and what calls may come between asking one
of them and asking it again.  A failed derivation is not among those calls, since the derivatives are
forgotten with it, and neither are definitions, which change what the expressions are.

## Main statement

* `Reachable.ask_again`: a question that was answered has the same reply ever after, and the reply
  takes no more slots.
-/

set_option autoImplicit false

namespace Residual

open Memo

/-- A question about expressions of a grammar. -/
inductive Question where
  | nullable (id : ExprId)
  | equal (x y : ExprId)
  | height (id : ExprId)
  | render (id : ExprId)
  | simplify (id : ExprId)
  | canonicalize (id : ExprId)
  | delta (id : ExprId)
  | derivative (id : ExprId) (c : Char)
  | derivativeOfText (id : ExprId) (text : String)
  | accepts (id : ExprId) (text : String)

/-- What a grammar replies to a question. -/
inductive Reply where
  | truth (isTrue : Bool)
  | number (value : Nat)
  | text (text : String)
  | expr (id : ExprId)
  deriving DecidableEq

namespace Question

/-- The call that asks a question. -/
def toCall : Question → Call
  | nullable id => .nullable id
  | equal x y => .equal x y
  | height id => .height id
  | render id => .render id
  | simplify id => .simplify id
  | canonicalize id => .canonicalize id
  | delta id => .delta id
  | derivative id c => .derivative id c
  | derivativeOfText id text => .derivativeOfText id text
  | accepts id text => .accepts (.expr id) text

/-- The reply to a question, and the grammar that is left. -/
def ask : Question → StateM Grammar (Except Grammar.Error Reply)
  | nullable id => return .ok (.truth (← Grammar.nullable id))
  | equal x y => return .ok (.truth (← Grammar.equal x y))
  | height id => return .ok (.number (← Grammar.height id))
  | render id => return .ok (.text (← Grammar.render id))
  | simplify id => return .ok (.expr (← Grammar.simplify id))
  | canonicalize id => return .ok (.expr (← Grammar.canonicalize id))
  | delta id => return .ok (.expr (← Grammar.delta id))
  | derivative id c => return (← Grammar.derivative id c).map .expr
  | derivativeOfText id text => return (← Grammar.derivativeOfText id text).map .expr
  | accepts id text => return (← Grammar.accepts (.expr id) text).map .truth

theorem snd_ask (question : Question) (grammar : Grammar) :
    (question.ask grammar).2 = (question.toCall.run grammar).2 := by
  cases question <;> rfl

end Question

theorem Grammar.Succeeds.map {Answer Result : Type} {result : Except Grammar.Error Answer}
    (succeeds : Grammar.Succeeds result) (f : Answer → Result) :
    Grammar.Succeeds (result.map f) := by
  obtain ⟨answer, rfl⟩ := succeeds
  exact ⟨f answer, rfl⟩

/-- The call did what it was asked for. -/
def Call.Succeeds (grammar : Grammar) : Call → Prop
  | range low high => Grammar.Succeeds (Grammar.range low high grammar).1
  | define link lang => Grammar.Succeeds (Grammar.define link lang grammar).1
  | derivative id c => Grammar.Succeeds (Grammar.derivative id c grammar).1
  | derivativeOfText id text => Grammar.Succeeds (Grammar.derivativeOfText id text grammar).1
  | accepts lang text => Grammar.Succeeds (Grammar.accepts lang text grammar).1
  | _ => True

namespace Grammar

variable {before after grammar later : Grammar} {id : ExprId}

/-- The later grammar comes from the earlier one by calls that succeed, none of which defines a link
or empties the tables. -/
inductive Continues (before : Grammar) : Grammar → Prop where
  | refl : Continues before before
  | call {grammar : Grammar} (call : Call) : Continues before grammar →
      (∀ id ∈ call.ids, id.number < grammar.arena.size) → call.defines = false →
      call ≠ .clearTables → call.Succeeds grammar → Continues before (call.run grammar).2

/-! ## What is defined stays defined -/

/-- No reference is missing, by the count of unbound links or by a search for them. -/
theorem Reachable.defined_of_undefined? (reachable : grammar.Reachable)
    (noneMissing : grammar.undefined? id = none) : grammar.arena.Defined id := by
  have wellFormed := reachable.coherent.wellFormed
  unfold undefined? at noneMissing
  split at noneMissing
  case isTrue isZero =>
    obtain ⟨awaited, awaits⟩ := reachable.exists_awaits
    have counts := awaits.counts
    have noneAwaited : awaited = ∅ := by
      rw [← Finset.card_eq_zero, ← counts.card_eq]
      exact beq_iff_eq.mp isZero
    apply Arena.defined_of_forall
    intro number _
    by_contra isUnbound
    have unbound := Arena.isUnbound_iff.mp (Bool.not_eq_false _ ▸ isUnbound)
    have member := (counts.unbound_iff _).mp unbound
    simp [noneAwaited] at member
  case isFalse => exact wellFormed.defined_of_firstUnbound? noneMissing

theorem Remembers.undefined?_eq_none (remembers : grammar.Remembers later)
    (reachable : grammar.Reachable) (inside : id.number < grammar.arena.size)
    (noneMissing : grammar.undefined? id = none) : later.undefined? id = none := by
  have defined := reachable.defined_of_undefined? noneMissing
  apply remembers.coherent.undefined?_eq_none
  exact (remembers.extending.defined_iff reachable.coherent.wellFormed inside).mpr defined

/-- The decision about a text by what is left of it. -/
theorem Coherent.establishes_decided (coherent : grammar.Coherent)
    (inside : id.number < grammar.arena.size) (event : Bool → Event) :
    grammar.Establishes Succeeds (do
      let accepted ← nullable id
      modify (note (event accepted))
      return (.ok accepted : Except Error Bool)) := by
  apply (coherent.establishes_nullable inside).andThen (.of_forall fun _ _ => trivial)
  rintro accepted between remembers -
  apply (remembers.coherent.establishes_note _).andThen (.of_forall fun _ _ => trivial)
  rintro _ after remembers' -
  exact remembers'.coherent.establishes_pure _

namespace Reachable

variable (reachable : grammar.Reachable)

include reachable

/-- What is asked only of expressions without missing references. -/
theorem establishes_defined {Answer : Type} {body : StateM Grammar (Except Error Answer)}
    {next : Grammar → StateM Grammar (Except Error Answer)}
    (inside : id.number < grammar.arena.size)
    (refuses : ∀ state link, state.undefined? id = some link →
      next state = pure (.error (.undefinedReference link)))
    (asks : ∀ state, state.undefined? id = none → next state = body)
    (establishes : grammar.Establishes Succeeds body) :
    grammar.Establishes Succeeds (get >>= next) := by
  cases missing : grammar.undefined? id with
  | some link =>
      apply Establishes.of_not
      have refused : Gives (get >>= next) grammar fun result _ =>
          result = .error (.undefinedReference link) := by
        apply (gives_bind _ _ _).mpr
        apply (gives_get _).mpr
        rw [refuses grammar link missing]
        exact rfl
      rw [show ((get >>= next) grammar).1 = _ from refused]
      rintro ⟨_, ⟨⟩⟩
  | none =>
      apply Establishes.get_bind
      · intro later remembers
        rw [asks grammar missing, asks later (remembers.undefined?_eq_none reachable inside missing)]
      · rwa [asks grammar missing]

theorem establishes_derivative (inside : id.number < grammar.arena.size) (c : Char) :
    grammar.Establishes Succeeds (Grammar.derivative id c) := by
  apply reachable.establishes_defined inside
  · intro state link missing
    simp only [missing]
  · intro state noneMissing
    simp only [noneMissing]
    rfl
  · exact reachable.coherent.establishes_deriveDefined inside c

theorem establishes_derivativeOfText (inside : id.number < grammar.arena.size) (text : String) :
    grammar.Establishes Succeeds (Grammar.derivativeOfText id text) := by
  unfold Grammar.derivativeOfText
  split
  · exact reachable.establishes_derivative inside _
  · exact reachable.coherent.establishes_pure _

theorem establishes_accepts (inside : id.number < grammar.arena.size) (text : String) :
    grammar.Establishes Succeeds (Grammar.accepts (.expr id) text) := by
  have coherent := reachable.coherent
  have given : Gives (Grammar.operand (.expr id)) grammar fun answer between =>
    answer = id ∧ between = grammar := ⟨rfl, rfl⟩
  apply Establishes.andThen (coherent.establishes_pure id) given
  rintro _ _ - ⟨rfl, rfl⟩
  apply reachable.establishes_defined inside
  · intro state link missing
    simp only [missing]
  · intro state noneMissing
    simp only [noneMissing]
    rfl
  apply (coherent.establishes_canonicalize inside).andThen (coherent.canonicalize inside)
  rintro start between remembers ⟨normalizes, _⟩
  have inside := normalizes.inside
  have coherent := remembers.coherent
  apply (coherent.establishes_consume inside _ 0).bind (coherent.consume inside _ 0)
  · rintro (error | consumption) state
    · rintro ⟨_, ⟨⟩⟩
    · exact fun _ => ⟨consumption, rfl⟩
  rintro _ consumed ⟨consumption, rfl⟩ remembers ⟨_, lastInside, _⟩
  have coherent := remembers.coherent
  cases consumption with
  | rejected offset =>
      apply (coherent.establishes_note _).andThen (.of_forall fun _ _ => trivial)
      rintro _ noted remembers -
      exact remembers.coherent.establishes_pure _
  | residual last =>
      have inside := lastInside rfl
      apply Establishes.get_bind
      · intro later remembers
        rw [remembers.config]
      split
      · exact coherent.establishes_decided inside _
      · apply (coherent.establishes_canonicalize inside).andThen (coherent.canonicalize inside)
        rintro value after remembers ⟨normalizes, _⟩
        exact remembers.coherent.establishes_decided normalizes.inside _

/-- Every question that is answered establishes its reply. -/
theorem establishes_ask (question : Question)
    (inside : ∀ id ∈ question.toCall.ids, id.number < grammar.arena.size) :
    grammar.Establishes Succeeds question.ask := by
  have coherent := reachable.coherent
  have given {id : ExprId} (same : question.toCall.ids = [id]) : id.number < grammar.arena.size :=
    inside id (by simp [same])
  have always {Answer : Type} {computation : StateM Grammar Answer} (reply : Answer → Reply)
      (establishes : grammar.Establishes (fun _ => True) computation) :
      grammar.Establishes Succeeds (do return .ok (reply (← computation))) := by
    apply establishes.andThen (.of_forall fun _ _ => trivial)
    rintro answer after remembers -
    exact remembers.coherent.establishes_pure _
  have perhaps {Answer : Type} {computation : StateM Grammar (Except Error Answer)}
      (reply : Answer → Reply) (establishes : grammar.Establishes Succeeds computation) :
      grammar.Establishes Succeeds (do return (← computation).map reply) := by
    apply establishes.bind (.of_forall fun _ _ => trivial)
    · rintro (error | answer) after
      · rintro ⟨_, ⟨⟩⟩
      · exact fun _ => ⟨answer, rfl⟩
    · rintro result after - remembers -
      exact remembers.coherent.establishes_pure _
  cases question with
  | nullable id => exact always .truth (coherent.establishes_nullable (given rfl))
  | equal x y =>
      exact always .truth (coherent.establishes_equal
        (inside x (by simp [Question.toCall, Call.ids]))
        (inside y (by simp [Question.toCall, Call.ids])))
  | height id => exact always .number (coherent.establishes_height (given rfl))
  | render id => exact always .text (coherent.establishes_render (given rfl))
  | simplify id => exact always .expr (coherent.establishes_simplify (given rfl))
  | canonicalize id => exact always .expr (coherent.establishes_canonicalize (given rfl))
  | delta id => exact always .expr (coherent.establishes_delta (given rfl))
  | derivative id c => exact perhaps .expr (reachable.establishes_derivative (given rfl) c)
  | derivativeOfText id text =>
      exact perhaps .expr (reachable.establishes_derivativeOfText (given rfl) text)
  | accepts id text => exact perhaps .truth (reachable.establishes_accepts (given rfl) text)

/-! ## What further calls keep -/

/-- Calls that succeed lose nothing, unless they define a link or empty the tables. -/
theorem remembers_run (call : Call) (inside : ∀ id ∈ call.ids, id.number < grammar.arena.size)
    (defines : call.defines = false) (keeps : call ≠ .clearTables)
    (succeeds : call.Succeeds grammar) : grammar.Remembers (call.run grammar).2 := by
  have coherent := reachable.coherent
  have asked (question : Question) (isCall : question.toCall = call)
      (answered : Succeeds (question.ask grammar).1) :
      grammar.Remembers (call.run grammar).2 := by
    subst isCall
    rw [← question.snd_ask]
    exact (reachable.establishes_ask question inside answered).1
  have made {Answer : Type} {computation : StateM Grammar Answer} (spares : Spares computation)
      (advances : grammar.Advances (computation grammar).2) :
      grammar.Remembers (computation grammar).2 :=
    advances.remembers (.of_eq (spares grammar))
  have advances (declares : call ≠ .declare) : grammar.Advances (call.run grammar).2 :=
    coherent.advances_run call inside defines declares keeps
  cases call with
  | operand lang => exact made (spares_operand lang) (advances (by simp))
  | token text => exact made (spares_token text) (advances (by simp))
  | range low high => exact made (spares_range low high) (advances (by simp))
  | alt left right => exact made (spares_binary .alt left right) (advances (by simp))
  | cat first second => exact made (spares_binary .cat first second) (advances (by simp))
  | not lang => exact made (spares_unary .not lang) (advances (by simp))
  | opt lang => exact made (spares_unary .opt lang) (advances (by simp))
  | plus lang => exact made (spares_unary .plus lang) (advances (by simp))
  | star lang => exact made (spares_unary .star lang) (advances (by simp))
  | rep lang count => exact made (spares_unary (.rep · count) lang) (advances (by simp))
  | choice langs => exact made (spares_choice langs) (advances (by simp))
  | seq langs => exact made (spares_seq langs) (advances (by simp))
  | declare =>
      have extending := Arena.extends_reserve grammar.arena
      exact ⟨coherent.declare.coherent, rfl, extending, .of_eq rfl⟩
  | define _ _ | tie _ _ => cases defines
  | clearTables => exact absurd rfl keeps
  | nullable id => exact asked (.nullable id) rfl ⟨_, rfl⟩
  | equal x y => exact asked (.equal x y) rfl ⟨_, rfl⟩
  | height id => exact asked (.height id) rfl ⟨_, rfl⟩
  | render id => exact asked (.render id) rfl ⟨_, rfl⟩
  | simplify id => exact asked (.simplify id) rfl ⟨_, rfl⟩
  | canonicalize id => exact asked (.canonicalize id) rfl ⟨_, rfl⟩
  | delta id => exact asked (.delta id) rfl ⟨_, rfl⟩
  | derivative id c => exact asked (.derivative id c) rfl (succeeds.map _)
  | derivativeOfText id text => exact asked (.derivativeOfText id text) rfl (succeeds.map _)
  | accepts lang text =>
      obtain ⟨advances, inside⟩ := coherent.makes_operand lang inside
      have reachable' : (operand lang grammar).2.Reachable :=
        reachable.evolve (.call (.operand lang) .refl ‹_›)
      have remembers := made (spares_operand lang) advances
      exact remembers.trans (reachable'.establishes_accepts inside text succeeds).1
  | record journal => exact (coherent.advances_journal journal).remembers (.of_eq rfl)

theorem remembers_continues (continues : grammar.Continues later) :
    later.Reachable ∧ grammar.Remembers later := by
  induction continues with
  | refl => exact ⟨reachable, reachable.coherent.remembers_refl⟩
  | call call _ inside defines keeps succeeds inductionHypothesis =>
      obtain ⟨reachable, remembers⟩ := inductionHypothesis
      exact ⟨reachable.evolve (.call call .refl inside),
        remembers.trans (reachable.remembers_run call inside defines keeps succeeds)⟩

/-- A question that was answered has the same reply after any further calls that succeed, as long as
no link is defined and the tables are not emptied, and the reply takes no slots any more. -/
theorem ask_again (question : Question)
    (inside : ∀ id ∈ question.toCall.ids, id.number < grammar.arena.size) {reply : Reply}
    (answered : (question.ask grammar).1 = .ok reply)
    (continues : (question.ask grammar).2.Continues later) :
    Gives question.ask later fun result after => result = .ok reply ∧ after.arena = later.arena := by
  have reachable' : (question.ask grammar).2.Reachable := by
    rw [question.snd_ask]
    exact reachable.evolve (.call question.toCall .refl inside)
  obtain ⟨_, constant⟩ := reachable.establishes_ask question inside ⟨reply, answered⟩
  apply (constant later (reachable'.remembers_continues continues).2).mono
  rintro result after ⟨rfl, sameArena, _⟩
  exact ⟨answered, sameArena⟩

end Reachable

theorem ask_again_complement :
    let question := Question.canonicalize ⟨3⟩
    let between := (question.ask complementOfRepetition).2
    let later := (declare (star (.char 'b') between).2).2
    between.Continues later ∧ Gives question.ask later fun result after =>
      result = .ok (.expr (canonicalize ⟨3⟩ complementOfRepetition).1) ∧
        after.arena = later.arena := by
  intro question between later
  have continues : between.Continues later := by
    have made : between.Continues (star (.char 'b') between).2 :=
      .call (.star (.char 'b')) .refl (by simp [Call.ids, Operand.ids]) rfl (by simp) trivial
    exact .call .declare made (by simp [Call.ids]) rfl (by simp) trivial
  refine ⟨continues, ?_⟩
  exact complementOfRepetition_reachable.ask_again question (by decide) rfl continues

end Grammar

end Residual
