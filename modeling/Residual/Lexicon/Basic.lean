import Residual.Grammar.Construction
import Residual.Span

/-!
# Lexicons

A lexicon is a list of rules over a grammar.  A rule describes, by an expression, either the texts
of one kind of token or texts that are skipped.  Earlier rules take precedence over later ones.
-/

set_option autoImplicit false

namespace Residual

/-- A piece of a source. -/
structure Token (Kind : Type) where
  kind : Kind
  span : Span
  deriving DecidableEq, Inhabited

namespace Lexicon

/-- Why a source could not be split into tokens. -/
inductive Error where
  /-- The expression of some rule cannot be derived. -/
  | grammar (error : Grammar.Error)
  /-- No rule accepts a text that starts with this character. -/
  | unexpectedCharacter (c : Char) (span : Span)
  deriving DecidableEq

def Error.message : Error → String
  | grammar error => error.message
  | unexpectedCharacter c span =>
      "unexpected character " ++ Text.quoteChar c ++ " at " ++ toString span

/-- The texts of a kind of token, or, without a kind, texts to skip. -/
structure Rule (Kind : Type) where
  kind : Option Kind
  lang : ExprId

end Lexicon

/-- Rules that split a source into tokens. -/
structure Lexicon (Kind : Type) where
  grammar : Grammar
  rules : Array (Lexicon.Rule Kind) := #[]

namespace Lexicon

variable {Kind Answer : Type}

def ofGrammar (grammar : Grammar) : Lexicon Kind :=
  { grammar }

/-- An operation on the grammar of a lexicon. -/
def onGrammar (operation : StateM Grammar Answer) : StateM (Lexicon Kind) Answer :=
  fun { grammar, rules } =>
    let (answer, grammar) := operation grammar
    (answer, { grammar, rules })

private def addRule (kind : Option Kind) (lang : Operand) : StateM (Lexicon Kind) Unit := do
  let lang ← onGrammar (Grammar.operand lang)
  modify fun lexicon => { lexicon with rules := lexicon.rules.push ⟨kind, lang⟩ }

/-- Adds a rule for tokens of a kind. -/
def rule (kind : Kind) (lang : Operand) : StateM (Lexicon Kind) Unit :=
  addRule (some kind) lang

/-- Adds a rule for texts to skip. -/
def skip (lang : Operand) : StateM (Lexicon Kind) Unit :=
  addRule none lang

end Lexicon

end Residual
