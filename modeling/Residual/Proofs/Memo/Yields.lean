import Residual.Memo.Solve
import Residual.Proofs.Ensures

/-!
# Computations that answer

`Yields` is total correctness of a computation over a state: it answers, and what it answers
satisfies a postcondition.  `Gives` is the same for computations that cannot fail.  The lemmas
follow a computation one operation at a time.
-/

set_option autoImplicit false

namespace Residual.Memo

section Gives

variable {State Answer Result : Type} {before : State}

/-- The answer of a computation that starts in `before`, and the state that it leaves, satisfy
`post`. -/
def Gives (computation : StateM State Answer) (before : State)
    (post : Answer → State → Prop) : Prop :=
  post (computation before).1 (computation before).2

theorem Gives.mono {computation : StateM State Answer} {post weaker : Answer → State → Prop}
    (gives : Gives computation before post)
    (weaken : ∀ answer after, post answer after → weaker answer after) :
    Gives computation before weaker :=
  weaken _ _ gives

/-- What holds of every answer and every state. -/
theorem Gives.of_forall {computation : StateM State Answer} {post : Answer → State → Prop}
    (holds : ∀ answer after, post answer after) : Gives computation before post :=
  holds _ _

/-- What a computation answers and leaves. -/
theorem gives_of_eq {computation : StateM State Answer} {answer : Answer} {after : State}
    {post : Answer → State → Prop} (run : computation before = (answer, after))
    (holds : post answer after) : Gives computation before post := by
  unfold Gives
  rwa [run]

theorem Gives.and {computation : StateM State Answer} {post post' : Answer → State → Prop}
    (gives : Gives computation before post) (gives' : Gives computation before post') :
    Gives computation before fun answer after => post answer after ∧ post' answer after :=
  ⟨gives, gives'⟩

@[simp]
theorem gives_pure (answer : Answer) (post : Answer → State → Prop) :
    Gives (pure answer) before post ↔ post answer before := Iff.rfl

@[simp]
theorem gives_bind (computation : StateM State Answer) (next : Answer → StateM State Result)
    (post : Result → State → Prop) :
    Gives (computation >>= next) before post ↔
      Gives computation before fun answer between => Gives (next answer) between post := Iff.rfl

@[simp]
theorem gives_get (post : State → State → Prop) :
    Gives (get : StateM State State) before post ↔ post before before := Iff.rfl

@[simp]
theorem gives_modify (change : State → State) (post : PUnit → State → Prop) :
    Gives (modify change : StateM State PUnit) before post ↔ post ⟨⟩ (change before) := Iff.rfl

end Gives

namespace Eval

variable {State Answer Result : Type} {before : State}

/-- The computation answers if it starts in `before`, and its answer and the state that it leaves
satisfy `post`. -/
def Yields (computation : Eval State Answer) (before : State)
    (post : Answer → State → Prop) : Prop :=
  ∃ answer after, computation before = .ok answer after ∧ post answer after

theorem Yields.mono {computation : Eval State Answer} {post weaker : Answer → State → Prop}
    (yields : computation.Yields before post)
    (weaken : ∀ answer after, post answer after → weaker answer after) :
    computation.Yields before weaker := by
  obtain ⟨answer, after, run, holds⟩ := yields
  exact ⟨answer, after, run, weaken answer after holds⟩

/-- Only what a computation does counts. -/
theorem yields_congr {computation computation' : Eval State Answer} {before' : State}
    {post : Answer → State → Prop} (same : computation before = computation' before') :
    computation.Yields before post ↔ computation'.Yields before' post := by
  unfold Yields
  rw [same]

@[simp]
theorem yields_pure (answer : Answer) (post : Answer → State → Prop) :
    Yields (pure answer) before post ↔ post answer before := by
  constructor
  · rintro ⟨_, _, run, holds⟩
    cases run
    exact holds
  · intro holds
    exact ⟨answer, before, rfl, holds⟩

@[simp]
theorem yields_bind (computation : Eval State Answer) (next : Answer → Eval State Result)
    (post : Result → State → Prop) :
    Yields (computation >>= next) before post ↔
      computation.Yields before fun answer between => (next answer).Yields between post := by
  constructor
  · rintro ⟨result, after, run, holds⟩
    simp only [bind, EStateM.bind] at run
    cases first : computation before with
    | ok answer between =>
        rw [first] at run
        exact ⟨answer, between, first, result, after, run, holds⟩
    | error halt between =>
        rw [first] at run
        cases run
  · rintro ⟨answer, between, first, result, after, run, holds⟩
    refine ⟨result, after, ?_, holds⟩
    simp only [bind, EStateM.bind, first]
    exact run

@[simp]
theorem yields_get (post : State → State → Prop) :
    Yields (get : Eval State State) before post ↔ post before before :=
  yields_pure before post

@[simp]
theorem yields_modify (change : State → State) (post : PUnit → State → Prop) :
    Yields (modify change : Eval State PUnit) before post ↔ post ⟨⟩ (change before) := by
  constructor
  · rintro ⟨_, _, run, holds⟩
    cases run
    exact holds
  · intro holds
    exact ⟨_, _, rfl, holds⟩

@[simp]
theorem yields_lift (computation : StateM State Answer) (post : Answer → State → Prop) :
    Yields (liftM computation : Eval State Answer) before post ↔
      post (computation before).1 (computation before).2 := by
  constructor
  · rintro ⟨_, _, run, holds⟩
    cases run
    exact holds
  · intro holds
    exact ⟨_, _, rfl, holds⟩

/-- Running a computation that answers gives its answer. -/
theorem Yields.settle {computation : Eval State Answer} {post : Answer → State → Prop}
    (yields : computation.Yields before post) (fallback : Answer) :
    Gives (computation.settle fallback) before post := by
  obtain ⟨answer, after, run, holds⟩ := yields
  simpa only [Gives, Eval.settle, run] using holds

/-- What a computation yields is all that it can answer. -/
theorem Yields.ensures {computation : Eval State Answer} {post : Answer → State → Prop}
    (yields : computation.Yields before post) : Ensures computation before post := by
  obtain ⟨answer, after, run, holds⟩ := yields
  constructor
  intro answer' after' answered
  cases run.symm.trans answered
  exact holds

/-- A computation that answers does so as it is ensured. -/
theorem Yields.and_ensures {computation : Eval State Answer} {post post' : Answer → State → Prop}
    (yields : computation.Yields before post) (ensures : Ensures computation before post') :
    computation.Yields before fun answer after => post answer after ∧ post' answer after := by
  obtain ⟨answer, after, run, holds⟩ := yields
  exact ⟨answer, after, run, holds, ensures.of_ok run⟩

@[simp]
theorem ensures_lift (computation : StateM State Answer) (post : Answer → State → Prop) :
    Ensures (liftM computation : Eval State Answer) before post ↔
      post (computation before).1 (computation before).2 := by
  constructor
  · intro ensures
    exact ensures.of_ok rfl
  · intro holds
    constructor
    intro answer after answered
    cases answered
    exact holds

end Eval

end Residual.Memo
