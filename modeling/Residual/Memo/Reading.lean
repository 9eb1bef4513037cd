/-!
# Readings

The defining equation of one key of a recursive function, as a decision tree: it asks for the
values of other keys, one after the other, and may choose the next key from the values it has
read.  At its leaves it answers.

A reading says which values are needed and what is made of them; it leaves open where the values
come from.
-/

set_option autoImplicit false

namespace Residual.Memo

/-- A computation of an `Answer` that asks for the values of keys. -/
inductive Reading (Key Value Answer : Type) where
  | answer (result : Answer)
  | ask (key : Key) (next : Value → Reading Key Value Answer)

namespace Reading

variable {Key Value Answer Result : Type}

protected def bind (reading : Reading Key Value Answer)
    (next : Answer → Reading Key Value Result) : Reading Key Value Result :=
  match reading with
  | answer result => next result
  | ask key rest => ask key fun value => (rest value).bind next

instance : Monad (Reading Key Value) where
  pure := answer
  bind := Reading.bind

/-- The value of a key. -/
def read (key : Key) : Reading Key Value Value :=
  ask key answer

/-- Answers every question of a reading by `recur`, in order. -/
def run {m : Type → Type} [Monad m] (recur : Key → m Value) : Reading Key Value Answer → m Answer
  | answer result => pure result
  | ask key next => do (next (← recur key)).run recur

/-- The answer of a reading when the value of every key is given. -/
def eval (values : Key → Value) : Reading Key Value Answer → Answer
  | answer result => result
  | ask key next => (next (values key)).eval values

/-- The keys a reading asks for when the value of every key is given, in order. -/
def asked (values : Key → Value) : Reading Key Value Answer → List Key
  | answer _ => []
  | ask key next => key :: (next (values key)).asked values

protected theorem bind_answer (reading : Reading Key Value Answer) :
    reading.bind answer = reading := by
  induction reading with
  | answer _ => rfl
  | ask key next inductionHypothesis => exact congrArg (ask key) (funext inductionHypothesis)

protected theorem bind_assoc {Final : Type} (reading : Reading Key Value Answer)
    (next : Answer → Reading Key Value Result) (last : Result → Reading Key Value Final) :
    (reading.bind next).bind last = reading.bind fun result => (next result).bind last := by
  induction reading with
  | answer _ => rfl
  | ask key next inductionHypothesis => exact congrArg (ask key) (funext inductionHypothesis)

instance : LawfulMonad (Reading Key Value) :=
  LawfulMonad.mk' (Reading Key Value) Reading.bind_answer (fun _ _ => rfl) Reading.bind_assoc

end Reading

end Residual.Memo
