import Residual.Expr
import Residual.Span
import Residual.Text.Quoted

/-!
# The journal

What the library has to report while it works, besides its answers.  A journal keeps events only
while it is recording.
-/

set_option autoImplicit false

namespace Residual

/-- How important an event is. -/
inductive Level where
  | warn
  | debug
  | trace
  deriving DecidableEq

namespace Level

def name : Level → String
  | warn => "WARN"
  | debug => "DEBUG"
  | trace => "TRACE"

end Level

/-- Something worth reporting. -/
inductive Event where
  /-- A fixed point computation starts one more pass. -/
  | passRepeated
  /-- A fixed point computation used up its passes while values were still changing. -/
  | passesExhausted (passes : Nat)
  | canonicalized (expr : ExprId) (passes : Nat)
  | notCanonical (expr : ExprId) (passes : Nat)
  /-- The rest of a text was not looked at, since nothing can complete it. -/
  | rejected (expr : ExprId) (text : String) (offset : Nat)
  /-- What a text still has to match after one of its characters. -/
  | residual (c : Char) (offset : Nat) (rendering : String)
  | decided (expr : ExprId) (text : String) (accepted : Bool)
  | tokenFound (kind : String) (span : Span)
  | textSkipped (span : Span)
  /-- A token starts an expression. -/
  | expressionStarted (kind : String) (span : Span)
  /-- A token continues an expression. -/
  | expressionContinued (kind : String) (span : Span)
  deriving DecidableEq

namespace Event

def level : Event → Level
  | passesExhausted _ | notCanonical .. => .warn
  | rejected .. | decided .. => .debug
  | passRepeated | canonicalized .. | residual .. | tokenFound .. | textSkipped _
  | expressionStarted .. | expressionContinued .. => .trace

def message : Event → String
  | passRepeated => "re-evaluating recursive function"
  | passesExhausted passes =>
      "no fixed point after " ++ toString passes ++ " passes, keeping last values"
  | canonicalized expr passes =>
      toString expr ++ " canonicalized in " ++ toString passes ++ " passes"
  | notCanonical expr passes =>
      toString expr ++ " not canonical after " ++ toString passes ++ " passes"
  | rejected expr text offset =>
      toString expr ++ " rejected " ++ Text.quote text ++ " at offset " ++ toString offset
  | residual c offset rendering =>
      "after " ++ Text.quoteChar c ++ " at offset " ++ toString offset ++ ": " ++ rendering
  | decided expr text accepted =>
      toString expr ++ " matching " ++ Text.quote text ++ ": "
        ++ (if accepted then "true" else "false")
  | tokenFound kind span => kind ++ " at " ++ toString span
  | textSkipped span => "skipped " ++ toString span
  | expressionStarted kind span => "nud " ++ kind ++ " at " ++ toString span
  | expressionContinued kind span => "led " ++ kind ++ " at " ++ toString span

/-- An event as one line of a report. -/
def line (event : Event) : String :=
  event.level.name ++ ": " ++ event.message

end Event

/-- The events of a computation, oldest first. -/
structure Journal where
  recording : Bool := false
  events : Array Event := #[]
  deriving Inhabited

namespace Journal

def note (event : Event) (journal : Journal) : Journal :=
  if journal.recording then { journal with events := journal.events.push event } else journal

/-- An empty journal that is recording. -/
def started : Journal := { recording := true }

/-- The recorded events as lines. -/
def lines (journal : Journal) : List String :=
  journal.events.toList.map Event.line

end Journal

end Residual
