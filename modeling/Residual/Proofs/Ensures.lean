/-!
# Partial correctness

`Ensures` is what the answer of a computation satisfies if there is one.  Nothing is said about a
computation that fails, so that no fuel has to be counted.  The lemmas follow a computation one
operation at a time.
-/

set_option autoImplicit false

namespace Residual

variable {Error State Answer Result : Type} {before : State}

/-- If the computation answers when it starts in `before`, then its answer and the state that it
leaves satisfy `post`. -/
structure Ensures (computation : EStateM Error State Answer) (before : State)
    (post : Answer → State → Prop) : Prop where
  of_ok : ∀ {answer after}, computation before = .ok answer after → post answer after

variable {computation computation' : EStateM Error State Answer} {before' : State}
  {post weaker : Answer → State → Prop}

theorem Ensures.mono (ensures : Ensures computation before post)
    (weaken : ∀ answer after, post answer after → weaker answer after) :
    Ensures computation before weaker where
  of_ok answered := weaken _ _ (ensures.of_ok answered)

theorem Ensures.and {post' : Answer → State → Prop} (ensures : Ensures computation before post)
    (ensures' : Ensures computation before post') :
    Ensures computation before fun answer after => post answer after ∧ post' answer after where
  of_ok answered := ⟨ensures.of_ok answered, ensures'.of_ok answered⟩

/-- Only what a computation does counts. -/
theorem Ensures.of_eq (ensures : Ensures computation' before' post)
    (same : computation before = computation' before') : Ensures computation before post where
  of_ok answered := ensures.of_ok (same.symm.trans answered)

theorem ensures_congr (same : computation before = computation' before') :
    Ensures computation before post ↔ Ensures computation' before' post := by
  constructor
  · intro ensures
    exact ensures.of_eq same.symm
  · intro ensures
    exact ensures.of_eq same

/-- What is ensured under a condition. -/
theorem Ensures.of_imp {condition : Prop} (ensures : condition → Ensures computation before post) :
    Ensures computation before fun answer after => condition → post answer after where
  of_ok answered holds := (ensures holds).of_ok answered

/-- A computation that answered goes on with its answer. -/
theorem bind_of_ok {next : Answer → EStateM Error State Result} {answer : Answer} {after : State}
    (answered : computation before = .ok answer after) :
    (computation >>= next) before = next answer after := by
  simp only [bind, EStateM.bind, answered]

/-- A computation that asks for the state goes on with it. -/
theorem bind_get (next : State → EStateM Error State Result) :
    ((get : EStateM Error State State) >>= next) before = next before before := rfl

@[simp]
theorem ensures_pure (answer : Answer) (post : Answer → State → Prop) :
    Ensures (pure answer : EStateM Error State Answer) before post ↔ post answer before := by
  constructor
  · intro ensures
    exact ensures.of_ok rfl
  · intro holds
    constructor
    intro answer' after answered
    cases answered
    exact holds

@[simp]
theorem ensures_throw (error : Error) (post : Answer → State → Prop) :
    Ensures (throw error : EStateM Error State Answer) before post := by
  constructor
  intro answer after answered
  cases answered

@[simp]
theorem ensures_bind (computation : EStateM Error State Answer)
    (next : Answer → EStateM Error State Result) (post : Result → State → Prop) :
    Ensures (computation >>= next) before post ↔
      Ensures computation before fun answer between => Ensures (next answer) between post := by
  constructor
  · intro ensures
    constructor
    intro answer between first
    constructor
    intro result after second
    apply ensures.of_ok
    simpa only [bind, EStateM.bind, first] using second
  · intro ensures
    constructor
    intro result after answered
    simp only [bind, EStateM.bind] at answered
    cases first : computation before with
    | ok answer between =>
        rw [first] at answered
        exact (ensures.of_ok first).of_ok answered
    | error error between =>
        rw [first] at answered
        cases answered

@[simp]
theorem ensures_get (post : State → State → Prop) :
    Ensures (get : EStateM Error State State) before post ↔ post before before := by
  constructor
  · intro ensures
    exact ensures.of_ok rfl
  · intro holds
    constructor
    intro answer after answered
    cases answered
    exact holds

@[simp]
theorem ensures_modifyGet (change : State → Answer × State) (post : Answer → State → Prop) :
    Ensures (modifyGet change : EStateM Error State Answer) before post ↔
      post (change before).1 (change before).2 := by
  constructor
  · intro ensures
    exact ensures.of_ok rfl
  · intro holds
    constructor
    intro answer after answered
    cases answered
    exact holds

@[simp]
theorem ensures_modify (change : State → State) (post : PUnit → State → Prop) :
    Ensures (modify change : EStateM Error State PUnit) before post ↔ post ⟨⟩ (change before) :=
  ensures_modifyGet (fun state => (PUnit.unit, change state)) post

end Residual
