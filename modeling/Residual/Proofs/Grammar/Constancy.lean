import Residual.Proofs.Grammar.Awaiting
import Residual.Proofs.Grammar.Persistence

/-!
# Asking again

A question that was answered is answered in the same way from then on, as long as no link is defined
and the tables are not emptied, and its answer takes no new slots any more.

A grammar `Remembers` another one if only slots were added since and nothing that the tables said was
lost.  What is `Constant` has one answer in all grammars that remember the present one, and a question
that `Establishes` its answer makes it so.  Both are closed under sequencing, so that they carry over
from single evaluations to the rounds of a canonicalization and to the derivatives by the characters
of a text, where each answer is the key of the next question.
-/

set_option autoImplicit false

namespace Residual.Grammar

open Memo Eval

variable {before after grammar : Grammar} {id x y : ExprId} {Answer Result : Type}

/-- Only slots were added, and nothing that the tables said was lost. -/
structure Remembers (before after : Grammar) : Prop where
  coherent : after.Coherent
  config : after.config = before.config
  extending : before.arena.Extends after.arena
  persists : before.Persists after

theorem Coherent.remembers_refl (coherent : grammar.Coherent) : grammar.Remembers grammar :=
  ⟨coherent, rfl, .refl _, .refl _⟩

theorem Remembers.trans {first second third : Grammar} (earlier : first.Remembers second)
    (later : second.Remembers third) : first.Remembers third where
  coherent := later.coherent
  config := later.config.trans earlier.config
  extending := earlier.extending.trans later.extending
  persists := earlier.persists.trans later.persists

theorem Advances.remembers (advances : before.Advances after) (persists : before.Persists after) :
    before.Remembers after :=
  ⟨advances.coherent, advances.config, advances.extending, persists⟩

theorem Remembers.lt_size (remembers : before.Remembers after)
    (inside : id.number < before.arena.size) : id.number < after.arena.size :=
  remembers.extending.grows.lt_size inside

theorem Remembers.resolve_eq (remembers : before.Remembers after) (coherent : before.Coherent)
    (inside : id.number < before.arena.size) : after.arena.resolve id = before.arena.resolve id :=
  remembers.extending.resolve coherent.wellFormed inside

/-! ## Answers that last -/

/-- In every grammar that remembers this one, the computation has this answer and takes no slots. -/
def Constant (grammar : Grammar) (computation : StateM Grammar Answer) (answer : Answer) : Prop :=
  ∀ later, grammar.Remembers later → Gives computation later fun answer' after =>
    answer' = answer ∧ after.arena = later.arena ∧ later.Remembers after

/-- A good answer of the computation is constant from now on. -/
def Establishes (grammar : Grammar) (Good : Answer → Prop) (computation : StateM Grammar Answer) :
    Prop :=
  Gives computation grammar fun answer after =>
    Good answer → grammar.Remembers after ∧ after.Constant computation answer

/-- A question that may fail has an answer. -/
def Succeeds (result : Except Error Answer) : Prop :=
  ∃ answer, result = .ok answer

section Sequences

variable {computation : StateM Grammar Answer} {next : Answer → StateM Grammar Result}
  {answer : Answer} {result : Result} {Good : Answer → Prop} {Good' : Result → Prop}

theorem Constant.later (constant : before.Constant computation answer)
    (remembers : before.Remembers after) : after.Constant computation answer :=
  fun later remembers' => constant later (remembers.trans remembers')

theorem Constant.bind (first : grammar.Constant computation answer)
    (rest : grammar.Constant (next answer) result) :
    grammar.Constant (computation >>= next) result := by
  intro later remembers
  apply (gives_bind _ _ _).mpr
  apply (first later remembers).mono
  rintro answer between ⟨rfl, sameArena, remembers'⟩
  apply (rest between (remembers.trans remembers')).mono
  rintro result after ⟨rfl, sameArena', remembers''⟩
  exact ⟨rfl, sameArena'.trans sameArena, remembers'.trans remembers''⟩

theorem Coherent.establishes_pure (coherent : grammar.Coherent) (answer : Answer) :
    grammar.Establishes Good (pure answer) := by
  intro _
  refine ⟨coherent.remembers_refl, fun later remembers => ?_⟩
  exact ⟨rfl, rfl, remembers.coherent.remembers_refl⟩

/-- One computation after another, which can only have a good answer after a good one. -/
theorem Establishes.bind {post : Answer → Grammar → Prop}
    (first : grammar.Establishes Good computation) (facts : Gives computation grammar post)
    (good : ∀ answer between, Good' (next answer between).1 → Good answer)
    (rest : ∀ answer between, Good answer → grammar.Remembers between → post answer between →
      between.Establishes Good' (next answer)) :
    grammar.Establishes Good' (computation >>= next) := by
  intro isGood
  obtain ⟨remembers, constant⟩ := first (good _ _ isGood)
  obtain ⟨remembers', constant'⟩ := rest _ _ (good _ _ isGood) remembers facts isGood
  exact ⟨remembers.trans remembers', (constant.later remembers').bind constant'⟩

/-- A computation whose answer is not good establishes nothing. -/
theorem Establishes.of_not (isBad : ¬ Good (computation grammar).1) :
    grammar.Establishes Good computation :=
  fun isGood => absurd isGood isBad

/-- One computation after another, all of whose answers are good. -/
theorem Establishes.andThen {post : Answer → Grammar → Prop}
    (first : grammar.Establishes (fun _ => True) computation)
    (facts : Gives computation grammar post)
    (rest : ∀ answer between, grammar.Remembers between → post answer between →
      between.Establishes Good' (next answer)) :
    grammar.Establishes Good' (computation >>= next) :=
  first.bind facts (fun _ _ _ => trivial) fun answer between _ => rest answer between

/-- What depends on nothing that may change. -/
theorem Establishes.get_bind {next : Grammar → StateM Grammar Answer}
    (same : ∀ later, grammar.Remembers later → next later = next grammar)
    (establishes : grammar.Establishes Good (next grammar)) :
    grammar.Establishes Good (get >>= next) := by
  intro isGood
  obtain ⟨remembers, constant⟩ := establishes isGood
  refine ⟨remembers, fun later remembers' => ?_⟩
  apply (gives_bind _ _ _).mpr
  apply (gives_get _).mpr
  rw [same later (remembers.trans remembers')]
  exact constant later remembers'

end Sequences

/-- Notes in the journal. -/
theorem Coherent.establishes_note (coherent : grammar.Coherent) (event : Event) :
    grammar.Establishes (fun _ => True) (modify (note event)) := by
  have noted (later : Grammar) (coherent : later.Coherent) : later.Remembers (note event later) :=
    (coherent.advances_journal _).remembers (.of_eq rfl)
  intro _
  refine ⟨noted grammar coherent, fun later remembers => ?_⟩
  exact ⟨rfl, rfl, noted later remembers.coherent⟩

/-! ## Evaluations -/

section Evaluations

variable {Key Value : Type} [BEq Key] [Hashable Key] [LawfulBEq Key]
  [BEq Value] {table : Tables → Table Key Value}
  {modifyTable : (Table Key Value → Table Key Value) → Tables → Tables}
  {function : Recursion Grammar Key Value} {evaluate : Eval Grammar Value} {key : Grammar → Key}
  {fuel : Grammar → Nat} {value : Value}

omit [BEq Value] in
/-- What is settled in an idle table lasts. -/
theorem IsPart.settled_of_persists (isPart : IsPart table modifyTable)
    (persists : before.Persists after)
    (idle : ∀ key : Key, (table before.tables).pending[key]? = none) {key : Key}
    (settled : (table before.tables).settled[key]? = some value) :
    (table after.tables).settled[key]? = some value := by
  obtain ⟨own, _⟩ := (isPart.persists_iff before after).mp persists
  exact (own.idle (Table.not_inUse_iff.mpr idle)).2 key value settled

omit [LawfulBEq Key] in
theorem solve_of_settled (isTable : ∀ grammar, function.table grammar = table grammar.tables)
    {key : Key} (settled : (table grammar.tables).settled[key]? = some value) (fuel : Nat) :
    function.solve (fuel + 1) key grammar = .ok value grammar := by
  apply Recursion.solve_of_known
  rw [isTable]
  exact Table.lookup_eq_known_iff.mpr (.inl settled)

/-- An evaluation for a key that stays the same settles its answer, which is all that is asked for
later. -/
theorem IsPart.answers_again (isPart : IsPart table modifyTable)
    (isTable : ∀ grammar, function.table grammar = table grammar.tables)
    (confined : function.Confined (Elsewhere modifyTable))
    (isEvaluation : ∀ state, evaluate state = function.solve (fuel state + 1) (key state) state)
    (sameKey : ∀ later, grammar.Remembers later → key later = key grammar)
    (idle : ∀ key : Key, (table grammar.tables).pending[key]? = none)
    (answers : evaluate.Yields grammar fun _ _ => True) :
    ∃ value after, evaluate grammar = .ok value after ∧ grammar.Persists after ∧
      ∀ later, grammar.Remembers later → after.Persists later →
        evaluate later = .ok value later := by
  have settles : Ensures evaluate grammar fun value after => grammar.Persists after ∧
      (table after.tables).settled[key grammar]? = some value :=
    (isPart.ensures_solve isTable confined idle _ _).of_eq (isEvaluation grammar)
  obtain ⟨value, after, run, _, persists, settled⟩ := answers.and_ensures settles
  have idle' : ∀ other : Key, (table after.tables).pending[other]? = none := by
    obtain ⟨own, _⟩ := (isPart.persists_iff _ _).mp persists
    exact Table.not_inUse_iff.mp (own.idle (Table.not_inUse_iff.mpr idle)).1
  refine ⟨value, after, run, persists, fun later remembers persists' => ?_⟩
  rw [isEvaluation, sameKey later remembers]
  exact solve_of_settled isTable (isPart.settled_of_persists persists' idle' settled) _

omit [BEq Key] [Hashable Key] [LawfulBEq Key] [BEq Value] in
theorem settle_of_ok {fallback : Value} (run : evaluate before = .ok value after) :
    (evaluate.settle fallback) before = (value, after) := by
  unfold Eval.settle
  rw [run]

theorem IsPart.establishes (isPart : IsPart table modifyTable)
    (isTable : ∀ grammar, function.table grammar = table grammar.tables)
    (confined : function.Confined (Elsewhere modifyTable))
    (isEvaluation : ∀ state, evaluate state = function.solve (fuel state + 1) (key state) state)
    (sameKey : ∀ later, grammar.Remembers later → key later = key grammar)
    (idle : ∀ key : Key, (table grammar.tables).pending[key]? = none)
    (answers : evaluate.Yields grammar fun _ _ => True) (fallback : Value)
    (advances : Gives (evaluate.settle fallback) grammar fun _ after => grammar.Advances after) :
    grammar.Establishes (fun _ => True) (evaluate.settle fallback) := by
  obtain ⟨value, after, run, persists, again⟩ :=
    isPart.answers_again isTable confined isEvaluation sameKey idle answers
  have remembers : grammar.Remembers after := by
    unfold Gives at advances
    rw [settle_of_ok run] at advances
    exact advances.remembers persists
  apply gives_of_eq (settle_of_ok run)
  intro _
  refine ⟨remembers, fun later remembers' => ?_⟩
  apply gives_of_eq (settle_of_ok (again later (remembers.trans remembers') remembers'.persists))
  exact ⟨rfl, rfl, remembers'.coherent.remembers_refl⟩

end Evaluations

/-! ## Questions -/

namespace Coherent

variable (coherent : grammar.Coherent) (inside : id.number < grammar.arena.size)

include coherent

section

include inside

theorem establishes_nullable : grammar.Establishes (fun _ => True) (nullable id) := by
  have yields := yields_computeNullable coherent.wellFormed (.refl _) coherent.nullability inside
  have advances : Gives (nullable id) grammar fun _ after => grammar.Advances after :=
    ((coherent.yields_nullable inside).settle false).mono fun _ _ facts => facts.1
  apply nullability_isPart.establishes (fun _ => rfl) (nullability_isPart.confined_analysis _ _)
    (fun _ => rfl) _ coherent.nullability.idle (yields.mono fun _ _ _ => trivial) false advances
  exact fun later remembers => remembers.resolve_eq coherent inside

theorem establishes_height : grammar.Establishes (fun _ => True) (Grammar.height id) := by
  have yields := yields_computeHeight coherent.wellFormed coherent.heights inside
  apply heights_isPart.establishes (fun _ => rfl) (heights_isPart.confined_analysis _ _)
    (fun _ => rfl) _ coherent.heights (yields.mono fun _ _ _ => trivial) 0 (coherent.height inside)
  exact fun later remembers => remembers.resolve_eq coherent inside

theorem establishes_render : grammar.Establishes (fun _ => True) (Grammar.render id) := by
  have yields := yields_computeRendering coherent.wellFormed coherent.renderings inside
  apply renderings_isPart.establishes (fun _ => rfl) (renderings_isPart.confined_analysis _ _)
    (fun _ => rfl) _ coherent.renderings (yields.mono fun _ _ _ => trivial) ellipsis
    (coherent.render inside)
  exact fun later remembers => remembers.resolve_eq coherent inside

theorem establishes_delta : grammar.Establishes (fun _ => True) (delta id) := by
  have yields := coherent.yields_computeDelta inside
  have advances : Gives (delta id) grammar fun _ after => grammar.Advances after :=
    (coherent.reduces inside).mono fun _ _ reduces => reduces.advances
  apply deltas_isPart.establishes (fun _ => rfl) confined_deltas (fun _ => rfl) _
    coherent.deltas.idle (yields.mono fun _ _ _ => trivial) ExprId.nil advances
  exact fun later remembers => remembers.resolve_eq coherent inside

theorem establishes_simplify : grammar.Establishes (fun _ => True) (Grammar.simplify id) := by
  have yields := yields_computeSimplified coherent.simplificationSide
    coherent.simplified.toSimplifiedKept inside
  have advances : Gives (Grammar.simplify id) grammar fun _ after => grammar.Advances after :=
    (coherent.simplify inside).mono fun _ _ facts => facts.1.advances
  apply simplified_isPart.establishes (fun _ => rfl) confined_simplifications (fun _ => rfl) _
    coherent.simplified.idle (yields.mono fun _ _ _ => trivial) id advances
  exact fun later remembers => remembers.resolve_eq coherent inside

end

theorem establishes_equal (inside : x.number < grammar.arena.size)
    (inside' : y.number < grammar.arena.size) :
    grammar.Establishes (fun _ => True) (Grammar.equal x y) := by
  have yields := yields_computeEqual coherent.wellFormed coherent.equalities inside inside'
  have advances : Gives (Grammar.equal x y) grammar fun _ after => grammar.Advances after :=
    (coherent.equal inside inside').mono fun _ _ facts => facts.1
  apply equalities_isPart.establishes (fun _ => rfl) (equalities_isPart.confined_analysis _ _)
    (fun _ => rfl) _ coherent.equalities.idle (yields.mono fun _ _ _ => trivial) true advances
  intro later remembers
  rw [remembers.resolve_eq coherent inside, remembers.resolve_eq coherent inside']

/-- Every round of a canonicalization asks for what the round before it answered. -/
theorem establishes_simplifyWithin (inside : id.number < grammar.arena.size) (passes done : Nat) :
    grammar.Establishes (fun _ => True) (Grammar.simplifyWithin id done passes) := by
  induction passes generalizing grammar id done with
  | zero => exact coherent.establishes_pure _
  | succ passes inductionHypothesis =>
      rw [Grammar.simplifyWithin]
      apply (coherent.establishes_simplify inside).andThen (coherent.simplify inside)
      rintro next between remembers ⟨normalizes, _⟩
      have coherent := remembers.coherent
      apply (coherent.establishes_equal (remembers.lt_size inside) normalizes.inside).andThen
        (coherent.equal (remembers.lt_size inside) normalizes.inside)
      rintro same after remembers' _
      split
      · exact remembers'.coherent.establishes_pure _
      · exact inductionHypothesis remembers'.coherent (remembers'.lt_size normalizes.inside) _

theorem establishes_canonicalize (inside : id.number < grammar.arena.size) :
    grammar.Establishes (fun _ => True) (Grammar.canonicalize id) := by
  apply Establishes.get_bind
  · intro later remembers
    rw [remembers.config]
  · apply (coherent.establishes_simplifyWithin inside _ 0).andThen (.of_forall fun _ _ => trivial)
    rintro result between remembers -
    split
    all_goals
      apply (remembers.coherent.establishes_note _).andThen (.of_forall fun _ _ => trivial)
      rintro _ after remembers' -
      exact remembers'.coherent.establishes_pure _

omit coherent in
theorem gives_deriveDefined {c : Char} {value : ExprId}
    (run : computeDerivative id c before = .ok value after) :
    Gives (Grammar.deriveDefined id c) before fun result last =>
      if after.fault = none then result = .ok value ∧ last = after
      else ∃ error, result = .error error := by
  apply (gives_bind _ _ _).mpr
  apply gives_of_eq (settle_of_ok run)
  apply (gives_bind _ _ _).mpr
  apply (gives_get _).mpr
  cases faulty : after.fault with
  | none => exact ⟨rfl, rfl⟩
  | some error => exact ⟨error, rfl⟩

/-- A derivative is remembered unless it met a fault. -/
theorem establishes_deriveDefined (inside : id.number < grammar.arena.size) (c : Char) :
    grammar.Establishes Succeeds (Grammar.deriveDefined id c) := by
  have side : DerivationSide grammar (grammar.arena.Faultless id) grammar :=
    ⟨coherent.wellFormed, coherent.nullability, fun _ => coherent.fault, by simp [coherent.fault]⟩
  have yields := yields_computeDerivative (c := c) side coherent.derivatives.toDerivativesKept
    inside fun faultless => faultless
  obtain ⟨value, evaluated, run, persists, again⟩ := derivatives_isPart.answers_again
    (fun _ => rfl) confined_derivatives (fun _ => rfl)
    (fun later remembers => by rw [remembers.resolve_eq coherent inside])
    coherent.derivatives.idle (yields.mono fun _ _ _ => trivial)
  apply ((coherent.deriveDefined inside).and (gives_deriveDefined run)).mono
  rintro result last ⟨derives, derived⟩ ⟨derivative, rfl⟩
  split at derived
  case isFalse => cases derived.choose_spec
  obtain ⟨isValue, rfl⟩ := derived
  have remembers : grammar.Remembers last := derives.advances.remembers persists
  refine ⟨remembers, fun later remembers' => ?_⟩
  have rerun := again later (remembers.trans remembers') remembers'.persists
  apply (gives_deriveDefined rerun).mono
  intro answer after derived
  rw [if_pos remembers'.coherent.fault] at derived
  rw [derived.1, derived.2, isValue]
  exact ⟨rfl, rfl, remembers'.coherent.remembers_refl⟩

theorem remembers_render (inside : id.number < grammar.arena.size) :
    Gives (Grammar.render id) grammar fun _ after =>
      grammar.Remembers after ∧ after.arena = grammar.arena := by
  have yields := yields_computeRendering coherent.wellFormed coherent.renderings inside
  have sameArena : Gives (Grammar.render id) grammar fun _ after => after.arena = grammar.arena :=
    (yields.settle ellipsis).mono fun _ _ facts => facts.2.2.1
  exact ⟨(coherent.establishes_render inside trivial).1, sameArena⟩

/-- A rendering that is noted in the journal. -/
theorem remembers_reported (inside : id.number < grammar.arena.size) {event : String → Event}
    {next : StateM Grammar Answer} {post : Answer → Grammar → Prop}
    (onward : ∀ {after : Grammar}, grammar.Remembers after → after.arena = grammar.arena →
      Gives next after post) :
    Gives (do
      if (← get).journal.recording then
        let rendering ← Grammar.render id
        modify (note (event rendering))
      next) grammar post := by
  apply (gives_bind _ _ _).mpr
  apply (gives_get _).mpr
  split
  · apply (gives_bind _ _ _).mpr
    apply (coherent.remembers_render inside).mono
    rintro rendering rendered ⟨remembers, sameArena⟩
    apply (gives_bind _ _ _).mpr
    have noted := (remembers.coherent.establishes_note (event rendering) trivial).1
    exact onward (remembers.trans noted) sameArena
  · exact onward coherent.remembers_refl rfl

theorem establishes_reported (inside : id.number < grammar.arena.size) {event : String → Event}
    {next : StateM Grammar Answer} {Good : Answer → Prop}
    (establishes : ∀ after, grammar.Remembers after → after.Establishes Good next) :
    grammar.Establishes Good (do
      if (← get).journal.recording then
        let rendering ← Grammar.render id
        modify (note (event rendering))
      next) := by
  apply coherent.remembers_reported inside
  intro between remembers _ isGood
  obtain ⟨remembers', constant⟩ := establishes between remembers isGood
  refine ⟨remembers.trans remembers', fun later remembers'' => ?_⟩
  have inside := (remembers'.trans remembers'').lt_size (remembers.lt_size inside)
  apply remembers''.coherent.remembers_reported inside
  intro noted remembersNoted sameArena
  apply (constant noted (remembers''.trans remembersNoted)).mono
  rintro answer after ⟨rfl, sameArena', remembers⟩
  exact ⟨rfl, sameArena'.trans sameArena, remembersNoted.trans remembers⟩

/-- A text is consumed by one derivative after another, each of them being remembered. -/
theorem establishes_consume (inside : id.number < grammar.arena.size) (rest : List Char)
    (offset : Nat) : grammar.Establishes Succeeds (Grammar.consume id offset rest) := by
  induction rest generalizing grammar id offset with
  | nil => exact coherent.establishes_pure _
  | cons c rest inductionHypothesis =>
      have onward {between : Grammar} {next : ExprId} (coherent : between.Coherent)
          (inside : next.number < between.arena.size) :
          between.Establishes Succeeds (do
            if (← get).journal.recording then
              let rendering ← Grammar.render next
              modify (note (.residual c offset rendering))
            Grammar.consume next (offset + c.utf8Size) rest) :=
        coherent.establishes_reported inside fun after remembers =>
          inductionHypothesis remembers.coherent (remembers.lt_size inside) _
      unfold Grammar.consume
      apply Establishes.get_bind
      · intro later remembers
        rw [show later.get id = grammar.get id from
          remembers.extending.get coherent.wellFormed inside]
      split
      · exact coherent.establishes_pure _
      apply (coherent.establishes_deriveDefined inside c).bind (coherent.deriveDefined inside)
      · rintro (error | next) between
        · rintro ⟨_, ⟨⟩⟩
        · exact fun _ => ⟨next, rfl⟩
      rintro _ between ⟨next, rfl⟩ remembers derives
      have inside := (derives.isDerivative rfl).1
      have coherent := remembers.coherent
      apply Establishes.get_bind
      · intro later remembers
        rw [remembers.config]
      split
      · apply (coherent.establishes_canonicalize inside).andThen (coherent.canonicalize inside)
        rintro value after remembers ⟨normalizes, _⟩
        exact onward remembers.coherent normalizes.inside
      · exact onward coherent inside

end Coherent

end Residual.Grammar
