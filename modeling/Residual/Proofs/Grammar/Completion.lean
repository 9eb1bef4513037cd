import Residual.Proofs.Grammar.Constancy

/-!
# Calls come to an end

An operation goes on with a value of its own should an evaluation be left without an answer.  Its
strict form stops there instead.  In a coherent grammar both do the same on all expressions of the
arena: every evaluation on the way answers, so that every call comes to an end.
-/

set_option autoImplicit false

namespace Residual

open Memo

namespace Grammar

/-! ## Strict operations -/

namespace Strict

def simplifyWithin (id : ExprId) (done : Nat) : (passes : Nat) → Eval Grammar Simplified
  | 0 => return ⟨id, none⟩
  | passes + 1 => do
      let next ← computeSimplified id
      if ← computeEqual id next then
        return ⟨next, some (done + 1)⟩
      else
        simplifyWithin next (done + 1) passes

def canonicalize (id : ExprId) : Eval Grammar ExprId := do
  let passes := (← get).config.simplify.maxPasses
  let result ← simplifyWithin id 0 passes
  match result.stableAfter with
  | some used => modify (note (.canonicalized id used))
  | none => modify (note (.notCanonical id passes))
  return result.expr

def deriveDefined (id : ExprId) (c : Char) : Eval Grammar (Except Error ExprId) := do
  let result ← computeDerivative id c
  match (← get).fault with
  | some error =>
      modify fun grammar =>
        { grammar with
          fault := none
          tables.derivatives := .empty grammar.tables.derivatives.strategy }
      return .error error
  | none => return .ok result

def derivative (id : ExprId) (c : Char) : Eval Grammar (Except Error ExprId) := do
  match (← get).undefined? id with
  | some link => return .error (.undefinedReference link)
  | none => deriveDefined id c

def derivativeOfText (id : ExprId) (text : String) : Eval Grammar (Except Error ExprId) := do
  match text.toList with
  | [c] => derivative id c
  | _ => return .error (.notSingleChar text)

def consume (id : ExprId) (offset : Nat) :
    (rest : List Char) → Eval Grammar (Except Error Consumption)
  | [] => return .ok (.residual id)
  | c :: rest => do
      if (← get).get id = .nil then
        return .ok (.rejected offset)
      match ← deriveDefined id c with
      | .error error => return .error error
      | .ok next =>
          let next ← if (← get).config.simplify.eachStep then canonicalize next else pure next
          if (← get).journal.recording then
            let rendering ← computeRendering next
            modify (note (.residual c offset rendering))
          consume next (offset + c.utf8Size) rest

def accepts (lang : Operand) (text : String) : Eval Grammar (Except Error Bool) := do
  let id ← operand lang
  match (← get).undefined? id with
  | some link => return .error (.undefinedReference link)
  | none =>
      let start ← canonicalize id
      match ← consume start 0 text.toList with
      | .error error => return .error error
      | .ok (.rejected offset) =>
          modify (note (.rejected id text offset))
          return .ok false
      | .ok (.residual last) =>
          let last ← if (← get).config.simplify.eachStep then pure last else canonicalize last
          let accepted ← computeNullable last
          modify (note (.decided id text accepted))
          return .ok accepted

end Strict

end Grammar

/-- What a call does to a grammar if every evaluation answers.  Only questions evaluate anything. -/
def Call.evaluate : Call → Eval Grammar Unit
  | nullable id => discard (Grammar.computeNullable id)
  | equal x y => discard (Grammar.computeEqual x y)
  | height id => discard (Grammar.computeHeight id)
  | render id => discard (Grammar.computeRendering id)
  | simplify id => discard (Grammar.computeSimplified id)
  | canonicalize id => discard (Grammar.Strict.canonicalize id)
  | delta id => discard (Grammar.computeDelta id)
  | derivative id c => discard (Grammar.Strict.derivative id c)
  | derivativeOfText id text => discard (Grammar.Strict.derivativeOfText id text)
  | accepts lang text => discard (Grammar.Strict.accepts lang text)
  | call => liftM call.run

namespace Grammar

/-! ## Completion -/

variable {grammar : Grammar} {id x y : ExprId} {c : Char} {Answer Result : Type}

/-- The evaluation answers, and it does what the operation does. -/
def Completes (evaluation : Eval Grammar Answer) (operation : StateM Grammar Answer)
    (grammar : Grammar) : Prop :=
  evaluation grammar = .ok (operation grammar).1 (operation grammar).2

theorem Completes.bind {evaluation : Eval Grammar Answer} {operation : StateM Grammar Answer}
    {next : Answer → Eval Grammar Result} {next' : Answer → StateM Grammar Result}
    (first : Completes evaluation operation grammar)
    (onward : Gives operation grammar fun answer after =>
      Completes (next answer) (next' answer) after) :
    Completes (evaluation >>= next) (operation >>= next') grammar :=
  (bind_of_ok first).trans onward

theorem Completes.get_bind {next : Grammar → Eval Grammar Result}
    {next' : Grammar → StateM Grammar Result}
    (onward : Completes (next grammar) (next' grammar) grammar) :
    Completes (get >>= next) (get >>= next') grammar :=
  onward

theorem completes_pure (answer : Answer) :
    Completes (pure answer : Eval Grammar Answer) (pure answer) grammar := rfl

theorem completes_lift (operation : StateM Grammar Answer) :
    Completes (liftM operation) operation grammar := rfl

theorem completes_modify (change : Grammar → Grammar) :
    Completes (modify change : Eval Grammar PUnit) (modify change) grammar := rfl

/-- A computation that answers does not need its fallback. -/
theorem completes_settle {evaluation : Eval Grammar Answer} {post : Answer → Grammar → Prop}
    (yields : evaluation.Yields grammar post) (fallback : Answer) :
    Completes evaluation (evaluation.settle fallback) grammar := by
  obtain ⟨answer, after, run, _⟩ := yields
  unfold Completes
  rw [settle_of_ok run, run]

theorem Completes.discard {evaluation : Eval Grammar Answer} {operation : StateM Grammar Answer}
    (completes : Completes evaluation operation grammar) :
    Completes (discard evaluation) (discard operation) grammar := by
  change EStateM.map (fun _ => ()) evaluation grammar = _
  unfold EStateM.map
  rw [completes]
  rfl

namespace Coherent

variable (coherent : grammar.Coherent)

include coherent

section Questions

variable (inside : id.number < grammar.arena.size)

include inside

theorem completes_nullable : Completes (computeNullable id) (nullable id) grammar :=
  completes_settle (coherent.yields_nullable inside) false

theorem completes_render : Completes (computeRendering id) (Grammar.render id) grammar :=
  completes_settle (yields_computeRendering coherent.wellFormed coherent.renderings inside) ellipsis

theorem completes_simplify : Completes (computeSimplified id) (Grammar.simplify id) grammar :=
  completes_settle (yields_computeSimplified coherent.simplificationSide
    coherent.simplified.toSimplifiedKept inside) id

/-- Every pass is given what the one before it answered. -/
theorem completes_simplifyWithin (passes done : Nat) :
    Completes (Strict.simplifyWithin id done passes) (Grammar.simplifyWithin id done passes) grammar := by
  induction passes generalizing grammar id done with
  | zero => exact completes_pure _
  | succ passes inductionHypothesis =>
      apply (coherent.completes_simplify inside).bind
      apply (coherent.simplify inside).mono
      rintro next between ⟨normalizes, _⟩
      have coherent := normalizes.advances.coherent
      have inside := normalizes.advances.lt_size inside
      have yields := yields_computeEqual coherent.wellFormed coherent.equalities inside
        normalizes.inside
      apply (completes_settle yields true).bind
      apply (coherent.equal inside normalizes.inside).mono
      rintro same after ⟨advances, _⟩
      split
      · exact completes_pure _
      · exact inductionHypothesis advances.coherent (advances.lt_size normalizes.inside) _

theorem completes_canonicalize :
    Completes (Strict.canonicalize id) (Grammar.canonicalize id) grammar := by
  apply Completes.get_bind
  apply (coherent.completes_simplifyWithin inside _ 0).bind
  apply Gives.of_forall
  intro result after
  cases result.stableAfter with
  | none | some _ =>
      apply (completes_modify _).bind
      exact completes_pure _

theorem completes_deriveDefined (c : Char) :
    Completes (Strict.deriveDefined id c) (Grammar.deriveDefined id c) grammar := by
  have side : DerivationSide grammar (grammar.arena.Faultless id) grammar :=
    ⟨coherent.wellFormed, coherent.nullability, fun _ => coherent.fault, by simp [coherent.fault]⟩
  have yields := yields_computeDerivative (c := c) side coherent.derivatives.toDerivativesKept
    inside fun faultless => faultless
  apply (completes_settle yields .nil).bind
  apply Gives.of_forall
  intro result after
  apply Completes.get_bind
  cases after.fault with
  | none => exact completes_pure _
  | some error =>
      apply (completes_modify _).bind
      exact completes_pure _

theorem completes_derivative (c : Char) :
    Completes (Strict.derivative id c) (Grammar.derivative id c) grammar := by
  apply Completes.get_bind
  cases grammar.undefined? id with
  | none => exact coherent.completes_deriveDefined inside c
  | some link => exact completes_pure _

theorem completes_derivativeOfText (text : String) :
    Completes (Strict.derivativeOfText id text) (Grammar.derivativeOfText id text) grammar := by
  unfold Strict.derivativeOfText Grammar.derivativeOfText
  match text.toList with
  | [c] => exact coherent.completes_derivative inside c
  | [] | _ :: _ :: _ => exact completes_pure _

/-- Every derivative is given what the one before it answered. -/
theorem completes_consume (rest : List Char) (offset : Nat) :
    Completes (Strict.consume id offset rest) (Grammar.consume id offset rest) grammar := by
  induction rest generalizing grammar id offset with
  | nil => exact completes_pure _
  | cons c rest inductionHypothesis =>
      have onward : ∀ {between : Grammar} {next : ExprId}, between.Coherent →
          next.number < between.arena.size →
          Completes (do
            if (← get).journal.recording then
              let rendering ← computeRendering next
              modify (note (.residual c offset rendering))
            Strict.consume next (offset + c.utf8Size) rest) (do
            if (← get).journal.recording then
              let rendering ← Grammar.render next
              modify (note (.residual c offset rendering))
            Grammar.consume next (offset + c.utf8Size) rest) between := by
        intro between next coherent inside
        apply Completes.get_bind
        split
        · apply (coherent.completes_render inside).bind
          apply (coherent.render inside).mono
          intro rendering rendered advances
          have noted := advances.coherent.advances_journal
          apply (completes_modify _).bind
          exact inductionHypothesis (noted _).coherent ((noted _).lt_size (advances.lt_size inside)) _
        · exact inductionHypothesis coherent inside _
      apply Completes.get_bind
      split
      · exact completes_pure _
      apply (coherent.completes_deriveDefined inside c).bind
      apply (coherent.deriveDefined inside).mono
      rintro (error | next) between derives
      · exact completes_pure _
      have coherent := derives.advances.coherent
      have inside := (derives.isDerivative rfl).1
      apply Completes.get_bind
      split
      · apply (coherent.completes_canonicalize inside).bind
        apply (coherent.canonicalize inside).mono
        rintro value after ⟨normalizes, _⟩
        exact onward normalizes.advances.coherent normalizes.inside
      · exact onward coherent inside

end Questions

theorem completes_accepts (lang : Operand) (text : String)
    (inside : ∀ id ∈ lang.ids, id.number < grammar.arena.size) :
    Completes (Strict.accepts lang text) (Grammar.accepts lang text) grammar := by
  apply (completes_lift _).bind
  apply (coherent.makes_operand lang inside).mono
  rintro id between ⟨advances, inside⟩
  have coherent := advances.coherent
  have decides : ∀ {after : Grammar} {last : ExprId} (event : Bool → Event), after.Coherent →
      last.number < after.arena.size →
      Completes (do
        let accepted ← computeNullable last
        modify (note (event accepted))
        return (.ok accepted : Except Error Bool)) (do
        let accepted ← nullable last
        modify (note (event accepted))
        return .ok accepted) after := by
    intro after last event coherent inside
    apply (coherent.completes_nullable inside).bind
    apply Gives.of_forall
    intro accepted noted
    apply (completes_modify _).bind
    exact completes_pure _
  apply Completes.get_bind
  cases between.undefined? id with
  | some link => exact completes_pure _
  | none => ?_
  apply (coherent.completes_canonicalize inside).bind
  apply (coherent.canonicalize inside).mono
  rintro start started ⟨normalizes, _⟩
  have coherent := normalizes.advances.coherent
  apply (coherent.completes_consume normalizes.inside _ 0).bind
  apply (coherent.consume normalizes.inside _ 0).mono
  rintro (error | (last | stop)) after consumed
  · exact completes_pure _
  · have coherent := consumed.advances.coherent
    have inside := consumed.inside rfl
    apply Completes.get_bind
    split
    · exact decides _ coherent inside
    · apply (coherent.completes_canonicalize inside).bind
      apply (coherent.canonicalize inside).mono
      rintro value later ⟨normalizes, _⟩
      exact decides _ normalizes.advances.coherent normalizes.inside
  · apply (completes_modify _).bind
    exact completes_pure _

/-- Every call comes to an end. -/
theorem completes_run (call : Call) (inside : ∀ id ∈ call.ids, id.number < grammar.arena.size) :
    Completes call.evaluate call.run grammar := by
  have given : ∀ {id}, call.ids = [id] → id.number < grammar.arena.size := fun same =>
    inside _ (by simp [same])
  cases call with
  | nullable id => exact (coherent.completes_nullable (given rfl)).discard
  | equal x y =>
      exact (completes_settle (yields_computeEqual coherent.wellFormed coherent.equalities
        (inside x (by simp [Call.ids])) (inside y (by simp [Call.ids]))) true).discard
  | height id =>
      exact (completes_settle
        (yields_computeHeight coherent.wellFormed coherent.heights (given rfl)) 0).discard
  | render id => exact (coherent.completes_render (given rfl)).discard
  | simplify id => exact (coherent.completes_simplify (given rfl)).discard
  | canonicalize id => exact (coherent.completes_canonicalize (given rfl)).discard
  | delta id => exact (completes_settle (coherent.yields_computeDelta (given rfl)) .nil).discard
  | derivative id c => exact (coherent.completes_derivative (given rfl) c).discard
  | derivativeOfText id text => exact (coherent.completes_derivativeOfText (given rfl) text).discard
  | accepts lang text => exact (coherent.completes_accepts lang text inside).discard
  | _ => exact completes_lift _

end Coherent

end Grammar

end Residual
