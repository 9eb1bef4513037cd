import Mathlib.Data.List.Forall2
import Residual.Memo.Reading
import Residual.Proofs.Memo.Yields

/-!
# What readings ask and answer

`Answers` relates a reading to its answer when the answers to its questions are only known to
satisfy a relation.  `Reports` adds that a question asked twice is answered the same way, so that
the reading was evaluated under some assignment.  `Asks` bounds the questions of a reading, whatever
it is told.
-/

set_option autoImplicit false

namespace Residual.Memo.Reading

variable {Key Value Answer Result : Type}

/-- The reading can answer `result` if its questions are answered as `Holds` allows. -/
inductive Answers (Holds : Key → Value → Prop) : Reading Key Value Answer → Answer → Prop where
  | answer (result : Answer) : Answers Holds (.answer result) result
  | ask {key : Key} {value : Value} {next : Value → Reading Key Value Answer} {result : Answer} :
      Holds key value → Answers Holds (next value) result → Answers Holds (.ask key next) result

/-- The reading answers `result` for an assignment of values to keys that `Holds` wherever it was
asked for. -/
def Reports (Holds : Key → Value → Prop) (reading : Reading Key Value Answer) (result : Answer) :
    Prop :=
  ∃ told, reading.eval told = result ∧ ∀ key ∈ reading.asked told, Holds key (told key)

/-- Whatever it is told, the reading asks for no other keys than these. -/
inductive Asks (Asked : Key → Prop) : Reading Key Value Answer → Prop where
  | answer (result : Answer) : Asks Asked (.answer result)
  | ask {key : Key} {next : Value → Reading Key Value Answer} :
      Asked key → (∀ value, Asks Asked (next value)) → Asks Asked (.ask key next)

/-- Whatever it is told, the reading asks for this key. -/
inductive Needs (key : Key) : Reading Key Value Answer → Prop where
  | here (next : Value → Reading Key Value Answer) : Needs key (.ask key next)
  | later {other : Key} {next : Value → Reading Key Value Answer} :
      (∀ value, Needs key (next value)) → Needs key (.ask other next)

section Assignments

variable {reading : Reading Key Value Answer} {told told' : Key → Value}

/-- What a reading answers depends only on the values that it asks for. -/
theorem eval_congr (same : ∀ key ∈ reading.asked told, told key = told' key) :
    reading.eval told = reading.eval told' := by
  induction reading with
  | answer _ => rfl
  | ask key next inductionHypothesis =>
      have here : told key = told' key := same key (by simp [asked])
      rw [eval, eval, ← here]
      exact inductionHypothesis _ fun other member => same other (by simp [asked, member])

/-- What a reading asks for depends only on the values that it was told. -/
theorem asked_congr (same : ∀ key ∈ reading.asked told, told key = told' key) :
    reading.asked told = reading.asked told' := by
  induction reading with
  | answer _ => rfl
  | ask key next inductionHypothesis =>
      have here : told key = told' key := same key (by simp [asked])
      rw [asked, asked, ← here]
      exact congrArg (key :: ·)
        (inductionHypothesis _ fun other member => same other (by simp [asked, member]))

end Assignments

namespace Asks

variable {Asked : Key → Prop} {key : Key}

theorem pure (result : Answer) : Asks Asked (Pure.pure result : Reading Key Value Answer) :=
  .answer result

theorem read (asked : Asked key) : Asks Asked (Reading.read key : Reading Key Value Value) :=
  .ask asked fun value => .answer value

theorem bind {reading : Reading Key Value Answer} {next : Answer → Reading Key Value Result}
    (first : reading.Asks Asked) (second : ∀ answer, (next answer).Asks Asked) :
    (reading >>= next).Asks Asked := by
  induction first with
  | answer result => exact second result
  | ask asked _ inductionHypothesis => exact .ask asked inductionHypothesis

theorem mono {Asked' : Key → Prop} {reading : Reading Key Value Answer}
    (asks : reading.Asks Asked) (weaken : ∀ key, Asked key → Asked' key) : reading.Asks Asked' := by
  induction asks with
  | answer result => exact .answer result
  | ask asked _ inductionHypothesis => exact .ask (weaken _ asked) inductionHypothesis

theorem and {Asked' : Key → Prop} {reading : Reading Key Value Answer}
    (asks : reading.Asks Asked) (asks' : reading.Asks Asked') :
    reading.Asks fun key => Asked key ∧ Asked' key := by
  induction asks with
  | answer result => exact .answer result
  | ask asked _ inductionHypothesis =>
      cases asks' with
      | ask asked' rest => exact .ask ⟨asked, asked'⟩ fun value => inductionHypothesis value (rest value)

theorem mapM {Item : Type} {f : Item → Reading Key Value Answer} {items : List Item}
    (each : ∀ item ∈ items, (f item).Asks Asked) : Asks Asked (items.mapM f) := by
  induction items with
  | nil => exact .pure []
  | cons item items inductionHypothesis =>
      rw [List.mapM_cons]
      refine (each item (by simp)).bind fun first => ?_
      refine (inductionHypothesis fun item member => each item (by simp [member])).bind fun rest => ?_
      exact .pure _

theorem foldlM {Item : Type} {f : Answer → Item → Reading Key Value Answer} {items : List Item}
    (each : ∀ item ∈ items, ∀ start, (f start item).Asks Asked) (start : Answer) :
    Asks Asked (items.foldlM f start) := by
  induction items generalizing start with
  | nil => exact .pure start
  | cons item items inductionHypothesis =>
      rw [List.foldlM_cons]
      refine (each item (by simp) start).bind fun next => ?_
      exact inductionHypothesis (fun item member => each item (by simp [member])) next

end Asks

namespace Needs

variable {key : Key}

theorem read (key : Key) : Needs key (Reading.read key : Reading Key Value Value) :=
  .here _

theorem bind_left {reading : Reading Key Value Answer} (next : Answer → Reading Key Value Result)
    (needs : reading.Needs key) : (reading >>= next).Needs key := by
  induction needs with
  | here _ => exact .here _
  | later _ inductionHypothesis => exact .later inductionHypothesis

theorem bind_right (reading : Reading Key Value Answer) {next : Answer → Reading Key Value Result}
    (needs : ∀ answer, (next answer).Needs key) : (reading >>= next).Needs key := by
  induction reading with
  | answer result => exact needs result
  | ask _ _ inductionHypothesis => exact .later inductionHypothesis

theorem mapM {Item : Type} {f : Item → Reading Key Value Answer} {items : List Item} {item : Item}
    (member : item ∈ items) (needs : (f item).Needs key) : Needs key (items.mapM f) := by
  induction items with
  | nil => cases member
  | cons first rest inductionHypothesis =>
      rw [List.mapM_cons]
      rcases List.mem_cons.mp member with rfl | member
      · exact .bind_left _ needs
      · exact .bind_right _ fun _ => .bind_left _ (inductionHypothesis member)

/-- What a reading needs is among what it asks for. -/
theorem asked [Inhabited Value] {Asked : Key → Prop} {reading : Reading Key Value Answer}
    (needs : reading.Needs key) (asks : reading.Asks Asked) : Asked key := by
  induction needs with
  | here _ =>
      cases asks with
      | ask asked _ => exact asked
  | later _ inductionHypothesis =>
      cases asks with
      | ask _ rest => exact inductionHypothesis default (rest default)

/-- What a reading needs was answered. -/
theorem exists_holds {Holds : Key → Value → Prop} {reading : Reading Key Value Answer}
    {result : Answer} (needs : reading.Needs key) (answers : reading.Answers Holds result) :
    ∃ value, Holds key value := by
  induction needs with
  | here _ =>
      cases answers with
      | ask holds _ => exact ⟨_, holds⟩
  | later _ inductionHypothesis =>
      cases answers with
      | ask _ rest => exact inductionHypothesis _ rest

end Needs

namespace Answers

variable {Holds Holds' : Key → Value → Prop} {Asked : Key → Prop}
  {reading : Reading Key Value Answer} {result : Answer}

theorem mono (answers : reading.Answers Holds result)
    (weaken : ∀ key value, Holds key value → Holds' key value) : reading.Answers Holds' result := by
  induction answers with
  | answer result => exact .answer result
  | ask holds _ inductionHypothesis => exact .ask (weaken _ _ holds) inductionHypothesis

/-- Only what is told of the keys that are asked for matters. -/
theorem mono_of_asks (answers : reading.Answers Holds result) (asks : reading.Asks Asked)
    (weaken : ∀ key value, Asked key → Holds key value → Holds' key value) :
    reading.Answers Holds' result := by
  induction answers with
  | answer result => exact .answer result
  | ask holds _ inductionHypothesis =>
      cases asks with
      | ask asked rest => exact .ask (weaken _ _ asked holds) (inductionHypothesis (rest _))

@[simp]
theorem pure_iff {answer : Answer} :
    (pure answer : Reading Key Value Answer).Answers Holds result ↔ result = answer := by
  constructor
  · rintro ⟨⟩
    rfl
  · rintro rfl
    exact .answer _

@[simp]
theorem read_iff {key : Key} {value : Value} :
    (read key : Reading Key Value Value).Answers Holds value ↔ Holds key value := by
  constructor
  · rintro (_ | ⟨holds, ⟨⟩⟩)
    exact holds
  · intro holds
    exact .ask holds (.answer value)

@[simp]
theorem bind_iff {next : Answer → Reading Key Value Result} {final : Result} :
    (reading >>= next).Answers Holds final ↔
      ∃ answer, reading.Answers Holds answer ∧ (next answer).Answers Holds final := by
  constructor
  · intro answers
    induction reading with
    | answer result => exact ⟨result, .answer result, answers⟩
    | ask key rest inductionHypothesis =>
        cases answers with
        | ask holds answers =>
            obtain ⟨answer, first, second⟩ := inductionHypothesis _ answers
            exact ⟨answer, .ask holds first, second⟩
  · rintro ⟨answer, first, second⟩
    induction first with
    | answer _ => exact second
    | ask holds _ inductionHypothesis => exact .ask holds (inductionHypothesis second)

/-- The answers of a list of readings are those of its members. -/
theorem forall₂ {Item : Type} {f : Item → Reading Key Value Answer} {items : List Item}
    {results : List Answer} (answers : (items.mapM f).Answers Holds results) :
    List.Forall₂ (fun item result => (f item).Answers Holds result) items results := by
  induction items generalizing results with
  | nil =>
      rw [List.mapM_nil, pure_iff] at answers
      exact answers ▸ .nil
  | cons item items inductionHypothesis =>
      simp only [List.mapM_cons, bind_iff, pure_iff] at answers
      obtain ⟨first, answers, rest, answers', rfl⟩ := answers
      exact .cons answers (inductionHypothesis answers')

/-- The answers of a list of readings, if each of them leaves no choice. -/
theorem mapM {Item : Type} {f : Item → Reading Key Value Answer} {items : List Item}
    {results : List Answer} {values : Item → Answer} (answers : (items.mapM f).Answers Holds results)
    (each : ∀ item ∈ items, ∀ result, (f item).Answers Holds result → result = values item) :
    results = items.map values := by
  induction items generalizing results with
  | nil =>
      rw [List.mapM_nil, pure_iff] at answers
      exact answers
  | cons item items inductionHypothesis =>
      simp only [List.mapM_cons, bind_iff, pure_iff] at answers
      obtain ⟨first, answers, rest, answers', rfl⟩ := answers
      rw [each item (by simp) first answers,
        inductionHypothesis answers' fun item member => each item (by simp [member])]
      rfl

end Answers

namespace Reports

variable {Holds Holds' : Key → Value → Prop} {reading : Reading Key Value Answer} {result : Answer}

theorem mono (reports : reading.Reports Holds result)
    (weaken : ∀ key value, Holds key value → Holds' key value) : reading.Reports Holds' result := by
  obtain ⟨told, isResult, holds⟩ := reports
  exact ⟨told, isResult, fun key member => weaken key _ (holds key member)⟩

theorem answers (reports : reading.Reports Holds result) : reading.Answers Holds result := by
  obtain ⟨told, rfl, holds⟩ := reports
  induction reading with
  | answer result => exact .answer result
  | ask key next inductionHypothesis =>
      exact .ask (holds key (by simp [asked]))
        (inductionHypothesis _ fun other member => holds other (by simp [asked, member]))

end Reports

open Classical in
/-- Answers that leave no choice come from an assignment. -/
theorem Answers.reports {Holds : Key → Value → Prop} {reading : Reading Key Value Answer}
    {result : Answer} (answers : reading.Answers Holds result) (fallback : Key → Value)
    (unique : ∀ {key value value'}, Holds key value → Holds key value' → value = value') :
    reading.Reports Holds result := by
  let told : Key → Value := fun key =>
    if told : ∃ value, Holds key value then told.choose else fallback key
  have told_eq : ∀ {key value}, Holds key value → told key = value := by
    intro key value holds
    have isTold : ∃ value, Holds key value := ⟨value, holds⟩
    simp only [told, dif_pos isTold]
    exact unique isTold.choose_spec holds
  refine ⟨told, ?_⟩
  induction answers with
  | answer _ => exact ⟨rfl, nofun⟩
  | @ask key value next result holds _ inductionHypothesis =>
      rw [eval, asked, told_eq holds]
      refine ⟨inductionHypothesis.1, ?_⟩
      rintro other (_ | ⟨_, member⟩)
      · rwa [told_eq holds]
      · exact inductionHypothesis.2 other member

/-- Running a reading under an invariant that every answer keeps. -/
theorem yields_run {State : Type} (Invariant : State → Prop) (Later : State → State → Prop)
    {Holds : State → Key → Value → Prop} {Asked : Key → Prop} (refl : ∀ state, Later state state)
    (trans : ∀ {first second third}, Later first second → Later second third → Later first third)
    (keep : ∀ {first second}, Later first second →
      ∀ key value, Holds first key value → Holds second key value)
    {recur : Key → Eval State Value} {reading : Reading Key Value Answer}
    (asks : reading.Asks Asked)
    (answered : ∀ key, Asked key → ∀ state, Invariant state →
      (recur key).Yields state fun value after =>
        Invariant after ∧ Later state after ∧ Holds after key value)
    {before : State} (invariant : Invariant before) :
    (reading.run recur).Yields before fun result after =>
      Invariant after ∧ Later before after ∧ reading.Answers (Holds after) result := by
  induction asks generalizing before with
  | answer result => exact (Eval.yields_pure _ _).mpr ⟨invariant, refl before, .answer result⟩
  | @ask key next asked _ inductionHypothesis =>
      refine (Eval.yields_bind _ _ _).mpr ?_
      refine (answered key asked before invariant).mono ?_
      rintro value between ⟨invariant, later, holds⟩
      refine (inductionHypothesis value invariant).mono ?_
      rintro result after ⟨invariant, later', answers⟩
      exact ⟨invariant, trans later later', .ask (keep later' _ _ holds) answers⟩

end Residual.Memo.Reading
