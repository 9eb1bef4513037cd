import Residual.Proofs.Pratt.Lexemes

/-!
# Parsing makes progress

`Performs` says what a parser does without a bound on its nesting: it relates what there is to do
and the lexemes that are left to the course of what happens to lexemes, the outcome, and the lexemes
that are left then.  The scripts of the symbols are arbitrary: they may go on after errors, and loop
as long as lexemes are left.

The measure is the number of lexemes that are left.  Every expression consumes its first lexeme
before a script is run, so that what is nested in it has fewer lexemes; hence the bounds of
`expression` and `extend` are never reached, and they do what `Performs` says (`carriesOut`).
-/

set_option autoImplicit false

namespace Residual.Pratt

variable {Kind Result : Type}

/-- Something that happens to a lexeme. -/
inductive Happening (Kind : Type) where
  /-- It is consumed. -/
  | handed (lexeme : Lexeme Kind)
  /-- Its script for the start of an expression is run. -/
  | started (lexeme : Lexeme Kind)
  /-- Its script for a place after an expression is run. -/
  | followed (lexeme : Lexeme Kind)

namespace Happening

def handed? : Happening Kind → Option (Lexeme Kind)
  | handed lexeme => some lexeme
  | started _ | followed _ => none

/-- The lexeme whose script is run. -/
def invoked? : Happening Kind → Option (Lexeme Kind)
  | handed _ => none
  | started lexeme | followed lexeme => some lexeme

def event? [ToString Kind] : Happening Kind → Option Event
  | handed _ => none
  | started lexeme => some (.expressionStarted (toString lexeme.kind) lexeme.span)
  | followed lexeme => some (.expressionContinued (toString lexeme.kind) lexeme.span)

end Happening

/-- What happens to lexemes, in order. -/
abbrev Course (Kind : Type) : Type := List (Happening Kind)

namespace Course

/-- The lexemes that are consumed. -/
def handed (course : Course Kind) : List (Lexeme Kind) :=
  course.filterMap Happening.handed?

/-- The lexemes whose scripts are run. -/
def invoked (course : Course Kind) : List (Lexeme Kind) :=
  course.filterMap Happening.invoked?

/-- The journal after a course. -/
def report [ToString Kind] (course : Course Kind) (journal : Journal) : Journal :=
  (course.filterMap Happening.event?).foldl (fun journal event => journal.note event) journal

/-- The next lexeme is consumed, if one is left. -/
def handing (rest : List (Lexeme Kind)) : Course Kind :=
  rest.head?.toList.map .handed

variable {course course' : Course Kind} {lexeme : Lexeme Kind} {rest : List (Lexeme Kind)}

@[simp]
theorem handed_append : (course ++ course').handed = course.handed ++ course'.handed :=
  List.filterMap_append

@[simp]
theorem invoked_append : (course ++ course').invoked = course.invoked ++ course'.invoked :=
  List.filterMap_append

@[simp]
theorem handed_handed_cons : handed (.handed lexeme :: course) = lexeme :: course.handed := rfl

@[simp]
theorem handed_started_cons : handed (.started lexeme :: course) = course.handed := rfl

@[simp]
theorem handed_followed_cons : handed (.followed lexeme :: course) = course.handed := rfl

@[simp]
theorem handed_nil : handed ([] : Course Kind) = [] := rfl

@[simp]
theorem invoked_handed_cons : invoked (.handed lexeme :: course) = course.invoked := rfl

@[simp]
theorem invoked_started_cons : invoked (.started lexeme :: course) = lexeme :: course.invoked := rfl

@[simp]
theorem invoked_followed_cons :
    invoked (.followed lexeme :: course) = lexeme :: course.invoked := rfl

@[simp]
theorem invoked_nil : invoked ([] : Course Kind) = [] := rfl

@[simp]
theorem handed_handing : (handing rest).handed ++ rest.tail = rest := by
  cases rest <;> rfl

@[simp]
theorem invoked_handing : (handing rest).invoked = [] := by
  cases rest <;> rfl

section Reports

variable [ToString Kind] {journal : Journal}

theorem report_append :
    (course ++ course').report journal = course'.report (course.report journal) := by
  unfold report
  rw [List.filterMap_append, List.foldl_append]

theorem report_handing : (handing rest).report journal = journal := by
  cases rest <;> rfl

end Reports

end Course

/-- Goes on with an answer, and fails if there is none. -/
def Script.onward {Answer Other : Type} (next : Answer → Script Kind Result Other) :
    Except Error Answer → Script Kind Result Other
  | .ok answer => next answer
  | .error error => .fail error

/-- What there is to do. -/
inductive Task (Kind Result : Type) where
  /-- To parse an expression of operators that bind tighter than `power`. -/
  | expression (power : Nat)
  /-- To extend what was parsed, if anything, by what follows it and binds tighter than `power`. -/
  | extension (power : Nat) (left : Except Error Result)
  /-- To run what a symbol says. -/
  | script (script : Script Kind Result Result)

namespace Symbols

variable [BEq Kind] [Hashable Kind] [ToString Kind] (symbols : Symbols Kind Result)

/-- An expression of operators that bind tighter than `power` ends here. -/
def Ends (power : Nat) (rest : List (Lexeme Kind)) : Prop :=
  ∀ lexeme ∈ rest.head?, symbols.power lexeme.kind ≤ power

/-- What becomes of the next lexeme, which has to be of some kind. -/
def require (kind : Kind) : Option (Lexeme Kind) → Except Error (Lexeme Kind)
  | none => .error (.unexpectedEnd (symbols.name kind))
  | some lexeme =>
      if lexeme.kind == kind then
        .ok lexeme
      else
        .error (.unexpectedToken (symbols.name kind) (symbols.name lexeme.kind) lexeme.span)

/-- What the parser does: a task that starts with the lexemes that are left takes this course, has
this outcome and leaves these lexemes. -/
inductive Performs : Task Kind Result → List (Lexeme Kind) → Course Kind → Except Error Result →
    List (Lexeme Kind) → Prop where
  | done (answer : Result) (rest : List (Lexeme Kind)) :
      Performs (.script (.done answer)) rest [] (.ok answer) rest
  | fail (error : Error) (rest : List (Lexeme Kind)) :
      Performs (.script (.fail error)) rest [] (.error error) rest
  | tryExpression {power : Nat} {next : Except Error Result → Script Kind Result Result}
      {rest between after : List (Lexeme Kind)} {course course' : Course Kind}
      {inner outcome : Except Error Result}
      (parsed : Performs (.expression power) rest course inner between)
      (later : Performs (.script (next inner)) between course' outcome after) :
      Performs (.script (.tryExpression power next)) rest (course ++ course') outcome after
  | expression {power : Nat} {next : Result → Script Kind Result Result}
      {rest after : List (Lexeme Kind)} {course : Course Kind} {outcome : Except Error Result}
      (run : Performs (.script (.tryExpression power (.onward next))) rest course outcome after) :
      Performs (.script (.expression power next)) rest course outcome after
  | tryExpect {kind : Kind} {next : Except Error (Lexeme Kind) → Script Kind Result Result}
      {rest after : List (Lexeme Kind)} {course : Course Kind} {outcome : Except Error Result}
      (later : Performs (.script (next (symbols.require kind rest.head?))) rest.tail course outcome
        after) :
      Performs (.script (.tryExpect kind next)) rest (.handing rest ++ course) outcome after
  | expect {kind : Kind} {next : Lexeme Kind → Script Kind Result Result}
      {rest after : List (Lexeme Kind)} {course : Course Kind} {outcome : Except Error Result}
      (run : Performs (.script (.tryExpect kind (.onward next))) rest course outcome after) :
      Performs (.script (.expect kind next)) rest course outcome after
  | advance {next : Option (Lexeme Kind) → Script Kind Result Result}
      {rest after : List (Lexeme Kind)} {course : Course Kind} {outcome : Except Error Result}
      (later : Performs (.script (next rest.head?)) rest.tail course outcome after) :
      Performs (.script (.advance next)) rest (.handing rest ++ course) outcome after
  | peek {next : Option Kind → Script Kind Result Result} {rest after : List (Lexeme Kind)}
      {course : Course Kind} {outcome : Except Error Result}
      (later : Performs (.script (next (rest.head?.map Lexeme.kind))) rest course outcome after) :
      Performs (.script (.peek next)) rest course outcome after
  | remaining {next : Nat → Script Kind Result Result} {rest after : List (Lexeme Kind)}
      {course : Course Kind} {outcome : Except Error Result}
      (later : Performs (.script (next rest.length)) rest course outcome after) :
      Performs (.script (.remaining next)) rest course outcome after
  | nothingLeft (power : Nat) :
      Performs (.expression power) [] [] (.error (.unexpectedEnd "expression")) []
  | cannotStart {power : Nat} {lexeme : Lexeme Kind} {rest : List (Lexeme Kind)}
      (found : (symbols[lexeme.kind]?).bind Symbol.start? = none) :
      Performs (.expression power) (lexeme :: rest) [.handed lexeme]
        (.error (.cannotStart (symbols.name lexeme.kind) lexeme.span)) rest
  | starts {power : Nat} {lexeme : Lexeme Kind} {start : Lexeme Kind → Script Kind Result Result}
      {rest between after : List (Lexeme Kind)} {course course' : Course Kind}
      {left outcome : Except Error Result}
      (found : (symbols[lexeme.kind]?).bind Symbol.start? = some start)
      (run : Performs (.script (start lexeme)) rest course left between)
      (later : Performs (.extension power left) between course' outcome after) :
      Performs (.expression power) (lexeme :: rest)
        (.handed lexeme :: .started lexeme :: course ++ course') outcome after
  | failed (power : Nat) (error : Error) (rest : List (Lexeme Kind)) :
      Performs (.extension power (.error error)) rest [] (.error error) rest
  | ends {power : Nat} {left : Result} {rest : List (Lexeme Kind)}
      (ends : symbols.Ends power rest) :
      Performs (.extension power (.ok left)) rest [] (.ok left) rest
  | cannotFollow {power : Nat} {left : Result} {lexeme : Lexeme Kind} {rest : List (Lexeme Kind)}
      (tighter : power < symbols.power lexeme.kind)
      (found : (symbols[lexeme.kind]?).bind Symbol.follow? = none) :
      Performs (.extension power (.ok left)) (lexeme :: rest) [.handed lexeme]
        (.error (.cannotFollow (symbols.name lexeme.kind) lexeme.span)) rest
  | follows {power : Nat} {left : Result} {lexeme : Lexeme Kind}
      {follow : Lexeme Kind → Result → Script Kind Result Result}
      {rest between after : List (Lexeme Kind)} {course course' : Course Kind}
      {left' outcome : Except Error Result} (tighter : power < symbols.power lexeme.kind)
      (found : (symbols[lexeme.kind]?).bind Symbol.follow? = some follow)
      (run : Performs (.script (follow lexeme left)) rest course left' between)
      (later : Performs (.extension power left') between course' outcome after) :
      Performs (.extension power (.ok left)) (lexeme :: rest)
        (.handed lexeme :: .followed lexeme :: course ++ course') outcome after

namespace Performs

variable {symbols} {task : Task Kind Result} {rest after after' : List (Lexeme Kind)}
  {course course' : Course Kind} {outcome outcome' : Except Error Result} {power : Nat}
  {result : Result}

/-- What was left is what was consumed and what is left. -/
theorem handed_append (performs : symbols.Performs task rest course outcome after) :
    course.handed ++ after = rest := by
  induction performs with
  | done | fail | nothingLeft | cannotStart | failed | ends | cannotFollow => rfl
  | expression _ consumed | expect _ consumed | peek _ consumed | remaining _ consumed =>
      exact consumed
  | tryExpression _ _ consumed consumed' =>
      rw [Course.handed_append, List.append_assoc, consumed', consumed]
  | tryExpect _ consumed | advance _ consumed =>
      rw [Course.handed_append, List.append_assoc, consumed, Course.handed_handing]
  | starts _ _ _ consumed consumed' | follows _ _ _ _ consumed consumed' =>
      simp [consumed, consumed']

/-- A script is run only for a lexeme that was consumed, and once for each. -/
theorem invoked_sublist (performs : symbols.Performs task rest course outcome after) :
    course.invoked.Sublist course.handed := by
  induction performs with
  | done | fail | nothingLeft | cannotStart | failed | ends | cannotFollow => simp
  | expression _ invoked | expect _ invoked | peek _ invoked | remaining _ invoked => exact invoked
  | tryExpression _ _ invoked invoked' => simpa using invoked.append invoked'
  | tryExpect _ invoked | advance _ invoked =>
      simpa using invoked.trans (List.sublist_append_right _ _)
  | starts _ _ _ invoked invoked' | follows _ _ _ _ invoked invoked' =>
      simpa using invoked.append invoked'

theorem length_le (performs : symbols.Performs task rest course outcome after) :
    after.length ≤ rest.length := by
  rw [← performs.handed_append, List.length_append]
  exact Nat.le_add_left _ _

/-- An extension that succeeds goes as far as it can. -/
theorem ends_of_extension {left : Except Error Result}
    (performs : symbols.Performs (.extension power left) rest course (.ok result) after) :
    symbols.Ends power after := by
  generalize isTask : Task.extension power left = task at performs
  generalize isOutcome : Except.ok result = outcome at performs
  induction performs generalizing left with
  | ends ends =>
      cases isTask
      exact ends
  | follows _ _ _ _ _ later_ends =>
      cases isTask
      exact later_ends rfl isOutcome
  | cannotFollow | failed => cases isOutcome
  | _ => cases isTask

/-- An expression that succeeds consumes a lexeme and goes as far as it can. -/
theorem progress (performs : symbols.Performs (.expression power) rest course (.ok result) after) :
    after.length < rest.length ∧ symbols.Ends power after := by
  cases performs with
  | starts _ run later =>
      have shorter := Nat.le_trans later.length_le run.length_le
      exact ⟨Nat.lt_succ_of_le shorter, later.ends_of_extension⟩

/-- There is one thing to do at a time. -/
theorem unique (first : symbols.Performs task rest course outcome after)
    (second : symbols.Performs task rest course' outcome' after') :
    course = course' ∧ outcome = outcome' ∧ after = after' := by
  induction first generalizing course' outcome' after' with
  | done | fail | nothingLeft | failed =>
      cases second
      exact ⟨rfl, rfl, rfl⟩
  | tryExpression _ _ parsed_unique later_unique =>
      cases second with
      | tryExpression parsed later =>
          obtain ⟨rfl, rfl, rfl⟩ := parsed_unique parsed
          obtain ⟨rfl, rfl, rfl⟩ := later_unique later
          exact ⟨rfl, rfl, rfl⟩
  | expression _ run_unique =>
      cases second with
      | expression run => exact run_unique run
  | expect _ run_unique =>
      cases second with
      | expect run => exact run_unique run
  | tryExpect _ later_unique =>
      cases second with
      | tryExpect later =>
          obtain ⟨rfl, rfl, rfl⟩ := later_unique later
          exact ⟨rfl, rfl, rfl⟩
  | advance _ later_unique =>
      cases second with
      | advance later =>
          obtain ⟨rfl, rfl, rfl⟩ := later_unique later
          exact ⟨rfl, rfl, rfl⟩
  | peek _ later_unique =>
      cases second with
      | peek later => exact later_unique later
  | remaining _ later_unique =>
      cases second with
      | remaining later => exact later_unique later
  | cannotStart found =>
      cases second with
      | cannotStart => exact ⟨rfl, rfl, rfl⟩
      | starts found' => cases found.symm.trans found'
  | starts found _ _ run_unique later_unique =>
      cases second with
      | cannotStart found' => cases found.symm.trans found'
      | starts found' run later =>
          cases found.symm.trans found'
          obtain ⟨rfl, rfl, rfl⟩ := run_unique run
          obtain ⟨rfl, rfl, rfl⟩ := later_unique later
          exact ⟨rfl, rfl, rfl⟩
  | ends ends =>
      cases second with
      | ends => exact ⟨rfl, rfl, rfl⟩
      | cannotFollow tighter | follows tighter =>
          exact absurd (ends _ rfl) (Nat.not_le.mpr tighter)
  | cannotFollow tighter found =>
      cases second with
      | ends ends => exact absurd (ends _ rfl) (Nat.not_le.mpr tighter)
      | cannotFollow => exact ⟨rfl, rfl, rfl⟩
      | follows _ found' => cases found.symm.trans found'
  | follows tighter found _ _ run_unique later_unique =>
      cases second with
      | ends ends => exact absurd (ends _ rfl) (Nat.not_le.mpr tighter)
      | cannotFollow _ found' => cases found.symm.trans found'
      | follows _ found' run later =>
          cases found.symm.trans found'
          obtain ⟨rfl, rfl, rfl⟩ := run_unique run
          obtain ⟨rfl, rfl, rfl⟩ := later_unique later
          exact ⟨rfl, rfl, rfl⟩

end Performs

end Symbols

/-! ## What the functions of the parser do -/

/-- An outcome as the result of a computation that leaves an input. -/
def resultOf {Answer : Type} (outcome : Except Error Answer) (after : Input Kind) :
    EStateM.Result Error (Input Kind) Answer :=
  match outcome with
  | .ok answer => .ok answer after
  | .error error => .error error after

namespace Parse

open Symbols

variable [BEq Kind] [Hashable Kind] [ToString Kind] {symbols : Symbols Kind Result}
  {Answer : Type} {rest : List (Lexeme Kind)} {journal : Journal} {limit : Nat}

/-- The computation performs the task, and reports its course. -/
def CarriesOut (symbols : Symbols Kind Result) (computation : Parse Kind Result)
    (task : Task Kind Result) (rest : List (Lexeme Kind)) : Prop :=
  ∃ course outcome after, symbols.Performs task rest course outcome after ∧
    ∀ journal, computation ⟨rest, journal⟩ = resultOf outcome ⟨after, course.report journal⟩

omit [BEq Kind] [Hashable Kind] [ToString Kind] in
theorem attempt_of_result {computation : Parse Kind Answer} {before after : Input Kind}
    {outcome : Except Error Answer} (same : computation before = resultOf outcome after) :
    attempt computation before = .ok outcome after := by
  unfold attempt
  rw [same]
  cases outcome <;> rfl

/-- To go on with an answer is to try and to fail with what failed. -/
theorem bind_run_eq {expression : Nat → Parse Kind Result} (computation : Parse Kind Answer)
    (next : Answer → Script Kind Result Result) :
    (do run symbols expression (next (← computation))) =
      (do run symbols expression (Script.onward next (← attempt computation))) := by
  funext input
  simp only [bind, EStateM.bind, attempt]
  cases computation input <;> rfl

omit [BEq Kind] [Hashable Kind] [ToString Kind] in
theorem advance_eq : advance ⟨rest, journal⟩ = .ok rest.head? ⟨rest.tail, journal⟩ := by
  cases rest <;> rfl

theorem expect_eq (kind : Kind) :
    expect symbols kind ⟨rest, journal⟩ =
      resultOf (symbols.require kind rest.head?) ⟨rest.tail, journal⟩ := by
  unfold expect
  apply (bind_of_ok advance_eq).trans
  cases rest with
  | nil => rfl
  | cons lexeme rest => by_cases same : lexeme.kind == kind <;> simp [require, same, resultOf] <;> rfl

section Scripts

variable {expression : Nat → Parse Kind Result}

theorem carriesOut_tryExpression {power : Nat}
    {next : Except Error Result → Script Kind Result Result}
    (parses : CarriesOut symbols (expression power) (.expression power) rest)
    (later : ∀ inner between, between.length ≤ rest.length →
      CarriesOut symbols (run symbols expression (next inner)) (.script (next inner)) between) :
    CarriesOut symbols (run symbols expression (.tryExpression power next))
      (.script (.tryExpression power next)) rest := by
  obtain ⟨course, inner, between, parsed, same⟩ := parses
  obtain ⟨course', outcome, after, performs, same'⟩ := later inner between parsed.length_le
  refine ⟨course ++ course', outcome, after, .tryExpression parsed performs, ?_⟩
  intro journal
  rw [run, bind_of_ok (attempt_of_result (same journal)), same', Course.report_append]

theorem carriesOut_tryExpect {kind : Kind}
    {next : Except Error (Lexeme Kind) → Script Kind Result Result}
    (later : ∀ inner, CarriesOut symbols (run symbols expression (next inner))
      (.script (next inner)) rest.tail) :
    CarriesOut symbols (run symbols expression (.tryExpect kind next))
      (.script (.tryExpect kind next)) rest := by
  obtain ⟨course, outcome, after, performs, same⟩ := later (symbols.require kind rest.head?)
  refine ⟨.handing rest ++ course, outcome, after, .tryExpect performs, ?_⟩
  intro journal
  rw [run, bind_of_ok (attempt_of_result (expect_eq kind)), same, Course.report_append,
    Course.report_handing]

/-- To fail needs nothing. -/
theorem carriesOut_onward {next : Answer → Script Kind Result Result}
    (later : ∀ answer, CarriesOut symbols (run symbols expression (next answer))
      (.script (next answer)) rest) (inner : Except Error Answer) :
    CarriesOut symbols (run symbols expression (.onward next inner)) (.script (.onward next inner))
      rest := by
  cases inner with
  | ok answer => exact later answer
  | error error => exact ⟨[], .error error, rest, .fail error rest, fun _ => rfl⟩

omit [BEq Kind] [Hashable Kind] [ToString Kind] in
theorem tail_fits (fits : rest.length ≤ limit) : rest.tail.length ≤ limit :=
  Nat.le_trans (by rw [List.length_tail]; exact Nat.sub_le _ _) fits

/-- A script is carried out if the expressions in it are. -/
theorem carriesOut_run
    (nested : ∀ power rest, rest.length ≤ limit →
      CarriesOut symbols (expression power) (.expression power) rest)
    (script : Script Kind Result Result) (fits : rest.length ≤ limit) :
    CarriesOut symbols (run symbols expression script) (.script script) rest := by
  induction script generalizing rest with
  | done answer => exact ⟨[], .ok answer, rest, .done answer rest, fun _ => rfl⟩
  | fail error => exact ⟨[], .error error, rest, .fail error rest, fun _ => rfl⟩
  | tryExpression power next inductionHypothesis =>
      apply carriesOut_tryExpression (nested power rest fits)
      intro inner between shorter
      exact inductionHypothesis inner (Nat.le_trans shorter fits)
  | expression power next inductionHypothesis =>
      have tries : CarriesOut symbols (run symbols expression (.tryExpression power (.onward next)))
          (.script (.tryExpression power (.onward next))) rest := by
        apply carriesOut_tryExpression (nested power rest fits)
        intro inner between shorter
        apply carriesOut_onward
        intro answer
        exact inductionHypothesis answer (Nat.le_trans shorter fits)
      obtain ⟨course, outcome, after, performs, same⟩ := tries
      refine ⟨course, outcome, after, .expression performs, fun journal => ?_⟩
      rw [← same, run, run, bind_run_eq]
  | tryExpect kind next inductionHypothesis =>
      apply carriesOut_tryExpect
      intro inner
      exact inductionHypothesis inner (tail_fits fits)
  | expect kind next inductionHypothesis =>
      have tries : CarriesOut symbols (run symbols expression (.tryExpect kind (.onward next)))
          (.script (.tryExpect kind (.onward next))) rest := by
        apply carriesOut_tryExpect
        apply carriesOut_onward
        intro lexeme
        exact inductionHypothesis lexeme (tail_fits fits)
      obtain ⟨course, outcome, after, performs, same⟩ := tries
      refine ⟨course, outcome, after, .expect performs, fun journal => ?_⟩
      rw [← same, run, run, bind_run_eq]
  | advance next inductionHypothesis =>
      obtain ⟨course, outcome, after, performs, same⟩ :=
        inductionHypothesis rest.head? (tail_fits fits)
      refine ⟨.handing rest ++ course, outcome, after, .advance performs, fun journal => ?_⟩
      rw [run, bind_of_ok advance_eq, same, Course.report_append, Course.report_handing]
  | peek next inductionHypothesis =>
      obtain ⟨course, outcome, after, performs, same⟩ :=
        inductionHypothesis (rest.head?.map Lexeme.kind) fits
      exact ⟨course, outcome, after, .peek performs, same⟩
  | remaining next inductionHypothesis =>
      obtain ⟨course, outcome, after, performs, same⟩ := inductionHypothesis rest.length fits
      exact ⟨course, outcome, after, .remaining performs, same⟩

end Scripts

variable {power : Nat} {lexeme : Lexeme Kind}

/-- What a script makes of an expression is extended. -/
theorem carriesOut_extended {script : Script Kind Result Result}
    (runs : CarriesOut symbols (run symbols (expression symbols limit) script)
      (.script script) rest)
    (extended : ∀ left between, between.length ≤ rest.length →
      CarriesOut symbols (extend symbols limit power left) (.extension power (.ok left)) between) :
    ∃ course left between course' outcome after,
      symbols.Performs (.script script) rest course left between ∧
      symbols.Performs (.extension power left) between course' outcome after ∧
      ∀ journal, (do
        let left ← run symbols (expression symbols limit) script
        extend symbols limit power left : Parse Kind Result) ⟨rest, journal⟩ =
          resultOf outcome ⟨after, (course ++ course').report journal⟩ := by
  obtain ⟨course, left, between, performs, same⟩ := runs
  cases left with
  | ok left =>
      obtain ⟨course', outcome, after, performs', same'⟩ := extended left between performs.length_le
      refine ⟨course, _, between, course', outcome, after, performs, performs', fun journal => ?_⟩
      rw [bind_of_ok (same journal), same', Course.report_append]
  | error error =>
      refine ⟨course, _, between, [], _, between, performs, .failed power error between, ?_⟩
      intro journal
      rw [List.append_nil]
      simp only [bind, EStateM.bind, same, resultOf]

/-- The bounds are never reached. -/
theorem carriesOut (symbols : Symbols Kind Result) (limit : Nat) :
    (∀ power rest, rest.length ≤ limit →
      CarriesOut symbols (expression symbols limit power) (.expression power) rest) ∧
    ∀ power left rest, rest.length ≤ limit →
      CarriesOut symbols (extend symbols limit power left) (.extension power (.ok left)) rest := by
  induction limit with
  | zero =>
      refine ⟨fun power rest fits => ?_, fun power left rest fits => ?_⟩
      · cases List.length_eq_zero_iff.mp (Nat.le_zero.mp fits)
        exact ⟨[], _, [], .nothingLeft power, fun _ => rfl⟩
      · cases List.length_eq_zero_iff.mp (Nat.le_zero.mp fits)
        exact ⟨[], .ok left, [], .ends nofun, fun _ => rfl⟩
  | succ limit inductionHypothesis =>
      obtain ⟨nested, extended⟩ := inductionHypothesis
      refine ⟨fun power rest fits => ?_, fun power left rest fits => ?_⟩
      · cases rest with
        | nil => exact ⟨[], _, [], .nothingLeft power, fun _ => expression_nil⟩
        | cons lexeme rest =>
            have fits := Nat.le_of_succ_le_succ fits
            cases found : (symbols[lexeme.kind]?).bind Symbol.start? with
            | none =>
                exact ⟨_, _, rest, .cannotStart found, fun _ => expression_cons_eq_error found⟩
            | some start =>
                obtain ⟨course, left, between, course', outcome, after, performs, performs',
                    same⟩ :=
                  carriesOut_extended (carriesOut_run nested (start lexeme) fits)
                    fun left between shorter =>
                      extended power left between (Nat.le_trans shorter fits)
                refine ⟨_, outcome, after, .starts found performs performs', fun journal => ?_⟩
                rw [expression_cons found, same]
                rfl
      · by_cases ends : symbols.Ends power rest
        · refine ⟨[], .ok left, rest, .ends ends, fun journal => ?_⟩
          cases rest with
          | nil => rfl
          | cons lexeme rest =>
              rw [extend]
              apply (bind_of_ok (get_eq _)).trans
              simp only [ends lexeme rfl, if_true]
              rfl
        · cases rest with
          | nil => exact absurd nofun ends
          | cons lexeme rest =>
              have fits := Nat.le_of_succ_le_succ fits
              have tighter : power < symbols.power lexeme.kind := by
                simpa [Symbols.Ends] using ends
              cases found : (symbols[lexeme.kind]?).bind Symbol.follow? with
              | none =>
                  exact ⟨_, _, rest, .cannotFollow tighter found,
                    fun _ => extend_cons_eq_error tighter found⟩
              | some follow =>
                  obtain ⟨course, left', between, course', outcome, after, performs, performs',
                      same⟩ :=
                    carriesOut_extended (carriesOut_run nested (follow lexeme left) fits)
                      fun left between shorter =>
                        extended power left between (Nat.le_trans shorter fits)
                  refine ⟨_, outcome, after, .follows tighter found performs performs',
                    fun journal => ?_⟩
                  rw [extend_cons tighter found, same]
                  rfl

/-- Whatever there is to do comes to an end. -/
theorem exists_performs (symbols : Symbols Kind Result) (task : Task Kind Result)
    (rest : List (Lexeme Kind)) :
    ∃ course outcome after, symbols.Performs task rest course outcome after := by
  obtain ⟨nested, extended⟩ := carriesOut symbols rest.length
  have performs {computation : Parse Kind Result} {task : Task Kind Result}
      (carriesOut : CarriesOut symbols computation task rest) :
      ∃ course outcome after, symbols.Performs task rest course outcome after := by
    obtain ⟨course, outcome, after, performs, _⟩ := carriesOut
    exact ⟨course, outcome, after, performs⟩
  cases task with
  | expression power => exact performs (nested power rest (Nat.le_refl _))
  | extension power left =>
      cases left with
      | ok left => exact performs (extended power left rest (Nat.le_refl _))
      | error error => exact ⟨[], _, rest, .failed power error rest⟩
  | script script => exact performs (carriesOut_run nested script (Nat.le_refl _))

end Parse

namespace Parser

variable [BEq Kind] [Hashable Kind] [ToString Kind]

/-- How a parse of the whole input ends, if an expression ended like this before these lexemes. -/
def verdict (symbols : Symbols Kind Result) :
    Except Error Result → List (Lexeme Kind) → Except Error Result
  | .ok _, lexeme :: _ => .error (.trailingInput (symbols.name lexeme.kind) lexeme.span)
  | .ok result, [] => .ok result
  | .error error, _ => .error error

section Operations

variable {symbols : Symbols Kind Result} {input after : Input Kind} {outcome : Except Error Result}

theorem expression_of_result {power : Nat}
    (same : Parse.expression symbols input.rest.length power input = resultOf outcome after) :
    expression power { symbols, input } = (outcome, { symbols, input := after }) := by
  cases outcome with
  | ok result => exact expression_of_ok same
  | error error => exact expression_of_error same

theorem parse_of_result (input after : Input Kind)
    (same : Parse.expression symbols input.rest.length 0 input = resultOf outcome after) :
    parse { symbols, input } =
      (verdict symbols outcome after.rest, { symbols, input := after }) := by
  obtain ⟨rest, journal⟩ := after
  cases outcome with
  | ok result =>
      cases rest with
      | nil =>
          apply parse_of_ok
          rw [Parse.whole, bind_get, bind_of_ok same]
          rfl
      | cons lexeme rest =>
          apply parse_of_error
          rw [Parse.whole, bind_get, bind_of_ok same]
          rfl
  | error error =>
      apply parse_of_error
      rw [Parse.whole, bind_get]
      simp only [bind, EStateM.bind, same, resultOf]

end Operations

/-- A parser always makes progress and loses no lexeme, whatever its scripts do.  Everything that
there is to do comes to one end; it consumes lexemes in order, each once, and runs a script at most
once for each of them; and an expression that succeeds consumes a lexeme and ends where it has to.
This is what the parser does for one expression and for the whole input, and the whole input is
consumed if it succeeds. -/
theorem parse_progresses (parser : Parser Kind Result) :
    (∀ task rest, ∃ course outcome after,
      parser.symbols.Performs task rest course outcome after ∧
      (∀ course' outcome' after', parser.symbols.Performs task rest course' outcome' after' →
        course = course' ∧ outcome = outcome' ∧ after = after') ∧
      course.handed ++ after = rest ∧ course.invoked.Sublist course.handed ∧
      ∀ power result, task = .expression power → outcome = .ok result →
        after.length < rest.length ∧ parser.symbols.Ends power after) ∧
    (∀ power, ∃ course outcome after,
      parser.symbols.Performs (.expression power) parser.input.rest course outcome after ∧
      expression power parser =
        (outcome, { parser with input := ⟨after, course.report parser.input.journal⟩ })) ∧
    ∃ course outcome after,
      parser.symbols.Performs (.expression 0) parser.input.rest course outcome after ∧
      parse parser = (verdict parser.symbols outcome after,
        { parser with input := ⟨after, course.report parser.input.journal⟩ }) ∧
      ∀ result, verdict parser.symbols outcome after = .ok result → after = [] := by
  obtain ⟨symbols, rest, journal⟩ := parser
  have nested := (Parse.carriesOut symbols rest.length).1
  refine ⟨?_, ?_, ?_⟩
  · intro task rest
    obtain ⟨course, outcome, after, performs⟩ := Parse.exists_performs symbols task rest
    refine ⟨course, outcome, after, performs, ?_, performs.handed_append,
      performs.invoked_sublist, ?_⟩
    · intro course' outcome' after' performs'
      exact performs.unique performs'
    · rintro power result rfl rfl
      exact performs.progress
  · intro power
    obtain ⟨course, outcome, after, performs, same⟩ := nested power rest (Nat.le_refl _)
    exact ⟨course, outcome, after, performs, expression_of_result (same journal)⟩
  · obtain ⟨course, outcome, after, performs, same⟩ := nested 0 rest (Nat.le_refl _)
    have parsed := parse_of_result ⟨rest, journal⟩ ⟨after, course.report journal⟩ (same journal)
    refine ⟨course, outcome, after, performs, parsed, ?_⟩
    intro result accepted
    cases outcome with
    | error error => cases accepted
    | ok result =>
        cases after with
        | nil => rfl
        | cons lexeme after => cases accepted

end Parser

end Residual.Pratt
