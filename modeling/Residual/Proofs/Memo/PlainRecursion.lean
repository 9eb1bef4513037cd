import Mathlib.Data.Set.Finite.Basic
import Mathlib.Logic.Relation
import Residual.Memo.Reading

/-!
# Plain recursion

`Follows` is plain recursion: every key that is asked for is evaluated anew, and the `course`
of an evaluation lists the keys in the order in which their equations are entered.

There may be infinitely many keys, values need not be ordered, and which keys are asked for may
depend on values.  A dependency is one that plain recursion comes to: a question counts only if the
values that lead to it are those of the keys asked for before.
-/

set_option autoImplicit false

namespace Residual.Memo

/-- Equations for any number of keys. -/
structure OpenSystem (Key Value : Type) where
  bottom : Key → Value
  equation : Key → Reading Key Value Value

namespace OpenSystem

/-! ## Plain recursion -/

section PlainRecursion

variable {Key Value : Type} (system : OpenSystem Key Value)

/-- Plain recursion through a reading comes to a value, and enters the equations of these keys, in
order and with all repetitions. -/
inductive Follows : Reading Key Value Value → Value → List Key → Prop where
  | answer (value : Value) : Follows (.answer value) value []
  | ask {key : Key} {next : Value → Reading Key Value Value} {told value : Value}
      {below rest : List Key} (asked : Follows (system.equation key) told below)
      (later : Follows (next told) value rest) :
      Follows (.ask key next) value (key :: below ++ rest)

/-- Plain recursion at a key. -/
def Evaluates (key : Key) (value : Value) (course : List Key) : Prop :=
  ∃ below, system.Follows (system.equation key) value below ∧ course = key :: below

/-- Plain recursion through a reading asks for the key. -/
inductive ComesTo (other : Key) : Reading Key Value Value → Prop where
  | here (next : Value → Reading Key Value Value) : ComesTo other (.ask other next)
  | later {key : Key} {next : Value → Reading Key Value Value} {told : Value} {below : List Key}
      (asked : system.Follows (system.equation key) told below)
      (comes : ComesTo other (next told)) : ComesTo other (.ask key next)

/-- Plain recursion at the first key asks for the second one. -/
def DependsOn (key other : Key) : Prop :=
  system.ComesTo other (system.equation key)

/-- No key depends on itself, directly or indirectly. -/
def Acyclic : Prop :=
  ∀ key, ¬Relation.TransGen system.DependsOn key key

variable {system} {reading : Reading Key Value Value} {value value' : Value}
  {course course' : List Key} {key other root : Key}

/-- Plain recursion leaves no choice. -/
theorem Follows.unique (first : system.Follows reading value course)
    (second : system.Follows reading value' course') : value = value' ∧ course = course' := by
  induction first generalizing value' course' with
  | answer value =>
      cases second
      exact ⟨rfl, rfl⟩
  | ask _ _ asked_unique later_unique =>
      cases second with
      | ask asked later =>
          obtain ⟨rfl, rfl⟩ := asked_unique asked
          obtain ⟨rfl, rfl⟩ := later_unique later
          exact ⟨rfl, rfl⟩

/-- Whatever is entered was asked for, directly or indirectly. -/
theorem Follows.exists_comesTo (follows : system.Follows reading value course)
    (member : other ∈ course) :
    ∃ key, system.ComesTo key reading ∧ Relation.ReflTransGen system.DependsOn key other := by
  induction follows with
  | answer value => cases member
  | ask asked later asked_from later_from =>
      rcases List.mem_append.mp member with member | member
      · rcases List.mem_cons.mp member with rfl | member
        · exact ⟨_, .here _, .refl⟩
        · obtain ⟨between, comes, onward⟩ := asked_from member
          exact ⟨_, .here _, onward.head comes⟩
      · obtain ⟨between, comes, onward⟩ := later_from member
        exact ⟨between, .later asked comes, onward⟩

theorem Follows.dependsOn {below : List Key}
    (follows : system.Follows (system.equation key) value below) (member : other ∈ below) :
    Relation.TransGen system.DependsOn key other := by
  obtain ⟨between, comes, onward⟩ := follows.exists_comesTo member
  exact .head' comes onward

/-- Plain recursion through a reading ends if it does so at every key that the reading asks for. -/
theorem exists_follows (asked : ∀ key, system.ComesTo key reading →
      ∃ told below, system.Follows (system.equation key) told below) :
    ∃ value course, system.Follows reading value course := by
  induction reading with
  | answer value => exact ⟨value, [], .answer value⟩
  | ask key next inductionHypothesis =>
      obtain ⟨told, below, isTold⟩ := asked key (.here next)
      obtain ⟨value, rest, later⟩ :=
        inductionHypothesis told fun other comes => asked other (.later isTold comes)
      exact ⟨value, _, .ask isTold later⟩

/-- Where finitely many keys depend on each other without a cycle, plain recursion ends. -/
theorem Acyclic.exists_evaluates (acyclic : system.Acyclic)
    (finite : Set.Finite (Relation.ReflTransGen system.DependsOn root)) :
    ∃ value course, system.Evaluates root value course := by
  let Needed := {key // Relation.ReflTransGen system.DependsOn root key}
  let Below : Needed → Needed → Prop := fun other key =>
    Relation.TransGen system.DependsOn key.1 other.1
  have : Finite Needed := finite
  have : IsTrans Needed Below := ⟨fun _ _ _ second first => first.trans second⟩
  have : Std.Irrefl Below := ⟨fun key => acyclic key.1⟩
  have wellFounded : WellFounded Below := Finite.wellFounded_of_trans_of_irrefl Below
  have ends : ∀ key : Needed, ∃ value below,
      system.Follows (system.equation key.1) value below := by
    intro key
    induction key using wellFounded.induction with
    | h key inductionHypothesis =>
        apply exists_follows
        intro other comes
        exact inductionHypothesis ⟨other, key.2.tail comes⟩ (.single comes)
  obtain ⟨value, below, follows⟩ := ends ⟨root, .refl⟩
  exact ⟨value, root :: below, below, follows, rfl⟩

end PlainRecursion

end OpenSystem

end Residual.Memo
