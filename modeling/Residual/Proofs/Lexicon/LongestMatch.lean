import Residual.Lexicon.Tokens
import Residual.Proofs.Grammar.Correctness
import Residual.Proofs.Lexicon.Munch

/-!
# Lexicons find longest matches

A lexicon changes by calls of its grammar, by new rules and by splitting sources into tokens.
Whatever came before, the longest match of a text is the longest non-empty beginning that the
language of a rule contains, and the first such rule.
-/

set_option autoImplicit false

namespace Residual

namespace Lexicon

open Memo

variable {Kind Answer : Type} {lexicon before after : Lexicon Kind} {grammar : Grammar}

/-- The expressions of the rules. -/
def langs (lexicon : Lexicon Kind) : List ExprId :=
  lexicon.rules.toList.map Rule.lang

/-- The grammar of a lexicon is coherent and has the expressions of its rules. -/
structure Coherent (lexicon : Lexicon Kind) : Prop where
  grammar : lexicon.grammar.Coherent
  inside : ∀ id ∈ lexicon.langs, id.number < lexicon.grammar.arena.size

theorem gives_onGrammar {operation : StateM Grammar Answer}
    {post : Answer → Lexicon Kind → Prop} :
    Gives (onGrammar operation) lexicon post ↔
      Gives operation lexicon.grammar fun answer grammar => post answer { lexicon with grammar } :=
  Iff.rfl

/-- The rules stay, and the grammar advances. -/
structure Advances (before after : Lexicon Kind) : Prop where
  rules : after.rules = before.rules
  grammar : before.grammar.Advances after.grammar

theorem Advances.trans {first second third : Lexicon Kind} (earlier : first.Advances second)
    (later : second.Advances third) : first.Advances third :=
  ⟨later.rules.trans earlier.rules, earlier.grammar.trans later.grammar⟩

theorem Coherent.advances_refl (coherent : lexicon.Coherent) : lexicon.Advances lexicon :=
  ⟨rfl, coherent.grammar.advances_refl⟩

theorem Coherent.of_grows (coherent : before.Coherent) (rules : after.rules = before.rules)
    (grows : before.grammar.Grows after.grammar) : after.Coherent := by
  refine ⟨grows.coherent, fun id member => grows.arena.lt_size (coherent.inside id ?_)⟩
  rwa [langs, rules] at member

theorem Coherent.advances (coherent : before.Coherent) (advances : before.Advances after) :
    after.Coherent :=
  coherent.of_grows advances.rules advances.grammar.grows

/-- A rule is added behind the others. -/
theorem Coherent.of_push (coherent : before.Coherent) (kind : Option Kind) (lang : Operand)
    (inside : ∀ id ∈ lang.ids, id.number < before.grammar.arena.size)
    (isGrammar : after.grammar = (Grammar.operand lang before.grammar).2)
    (isPushed : after.rules = before.rules.push ⟨kind, (Grammar.operand lang before.grammar).1⟩) :
    after.Coherent := by
  obtain ⟨advances, inside'⟩ := coherent.grammar.makes_operand lang inside
  rw [← isGrammar] at advances inside'
  refine ⟨advances.coherent, fun id member => ?_⟩
  simp only [langs, isPushed, Array.toList_push, List.map_append, List.mem_append,
    List.map_singleton, List.mem_singleton] at member
  rcases member with member | rfl
  · exact advances.lt_size (coherent.inside id member)
  · exact inside'

section Scan

variable [ToString Kind]

/-- Splitting a source only advances the grammar. -/
theorem Coherent.scan (coherent : lexicon.Coherent) (place : Place) :
    Gives (scan place) lexicon fun _ after => lexicon.Advances after := by
  induction isSize : place.rest.length using Nat.strong_induction_on generalizing place lexicon with
  | _ size inductionHypothesis =>
      rw [Lexicon.scan]
      split
      · exact coherent.advances_refl
      · refine (gives_bind _ _ _).mpr ((gives_get _).mpr ?_)
        refine (gives_bind _ _ _).mpr (gives_onGrammar.mpr
          ((coherent.grammar.longestMatch coherent.inside place.rest).mono ?_))
        rintro (error | _ | found) grammar ⟨advances, _⟩
        · exact ⟨rfl, advances⟩
        · exact ⟨rfl, advances⟩
        · have noted := advances.coherent.advances_journal
          dsimp only
          split
          · exact ⟨rfl, advances.trans (noted _)⟩
          · have skipped : ∀ journal, lexicon.Advances ⟨{ grammar with journal }, lexicon.rules⟩ :=
              fun journal => ⟨rfl, advances.trans (noted journal)⟩
            have shorter : (place.skip found.length).rest.length < size :=
              isSize ▸ Place.length_skip_lt found.length_pos (by simp [*])
            exact (inductionHypothesis _ shorter (coherent.advances (skipped _)) _ rfl).mono
              fun _ _ advances => (skipped _).trans advances

/-- The next token. -/
theorem Coherent.nextToken (coherent : lexicon.Coherent) (place : Place) :
    Gives (nextToken place) lexicon fun _ after => lexicon.Advances after := by
  refine (gives_bind _ _ _).mpr ((coherent.scan place).mono fun scanned after advances => ?_)
  cases scanned <;> exact advances

theorem Coherent.tokensFrom (coherent : lexicon.Coherent) (place : Place) :
    Gives (tokensFrom place) lexicon fun _ after => lexicon.Advances after := by
  induction isSize : place.rest.length using Nat.strong_induction_on generalizing place lexicon with
  | _ size inductionHypothesis =>
      rw [Lexicon.tokensFrom]
      refine (gives_bind _ _ _).mpr ((coherent.scan place).mono ?_)
      rintro (_ | ⟨token, next, shorter⟩ | error) between advances
      · exact advances
      · refine (gives_bind _ _ _).mpr ((inductionHypothesis _ (isSize ▸ shorter)
          (coherent.advances advances) next rfl).mono ?_)
        rintro (error | tokens) after advances'
        · exact advances.trans advances'
        · exact advances.trans advances'
      · exact advances

/-- The lexicon comes from calls of its grammar, new rules and split sources. -/
inductive Reachable : Lexicon Kind → Prop where
  | start {grammar : Grammar} : grammar.Reachable → Reachable (ofGrammar grammar)
  | call {lexicon : Lexicon Kind} (call : Call) : Reachable lexicon →
      (∀ id ∈ call.ids, id.number < lexicon.grammar.arena.size) →
      Reachable (onGrammar call.run lexicon).2
  | rule {lexicon : Lexicon Kind} (kind : Kind) (lang : Operand) : Reachable lexicon →
      (∀ id ∈ lang.ids, id.number < lexicon.grammar.arena.size) →
      Reachable (rule kind lang lexicon).2
  | skip {lexicon : Lexicon Kind} (lang : Operand) : Reachable lexicon →
      (∀ id ∈ lang.ids, id.number < lexicon.grammar.arena.size) →
      Reachable (skip lang lexicon).2
  | nextToken {lexicon : Lexicon Kind} (place : Place) : Reachable lexicon →
      Reachable (nextToken place lexicon).2
  | tokens {lexicon : Lexicon Kind} (source : String) : Reachable lexicon →
      Reachable (tokens source lexicon).2

theorem Reachable.coherent (reachable : lexicon.Reachable) : lexicon.Coherent := by
  induction reachable with
  | start reachable => exact ⟨reachable.coherent, nofun⟩
  | call call _ inside coherent =>
      exact coherent.of_grows rfl (coherent.grammar.grows_run call inside)
  | rule kind lang _ inside coherent => exact coherent.of_push (some kind) lang inside rfl rfl
  | skip lang _ inside coherent => exact coherent.of_push none lang inside rfl rfl
  | nextToken place _ coherent => exact coherent.advances (coherent.nextToken place)
  | tokens source _ coherent => exact coherent.advances (coherent.tokensFrom _)

end Scan

/-- Expressions with meanings have meanings one by one. -/
theorem exists_forall₂ {A B : Type} {R : A → B → Prop} {ys : List B}
    (each : ∀ y ∈ ys, ∃ x, R x y) : ∃ xs, List.Forall₂ R xs ys := by
  induction ys with
  | nil => exact ⟨[], .nil⟩
  | cons y ys inductionHypothesis =>
      obtain ⟨x, here⟩ := each y (by simp)
      obtain ⟨xs, there⟩ := inductionHypothesis fun y member => each y (by simp [member])
      exact ⟨x :: xs, .cons here there⟩

/-- In every state of a lexicon, the longest match of a text has the rule and the number of bytes of
the longest non-empty beginning that a rule contains, and there is none only if no rule contains a
non-empty beginning. -/
theorem longestMatch_extent_iff [ToString Kind] (reachable : lexicon.Reachable)
    (passes : 1 ≤ lexicon.grammar.config.simplify.maxPasses) (text : List Char)
    (defined : ∀ id ∈ lexicon.langs, lexicon.grammar.arena.Defined id)
    (kind : ∀ id ∈ lexicon.langs, lexicon.grammar.arena.Acyclic id ∨
      lexicon.grammar.arena.ComplementFree id ∧
        (longestMatch lexicon.langs text lexicon.grammar).2.Complete) :
    ∃ languages found,
      List.Forall₂ lexicon.grammar.arena.Speaks lexicon.langs languages ∧
      (longestMatch lexicon.langs text lexicon.grammar).1 = .ok found ∧
      (∀ rule length, found.map (Match.extent text) = some (rule, length) ↔
        ∃ word, IsMatch languages text word rule ∧ Text.byteLength word = length) ∧
      (found = none ↔ Excluded languages text) := by
  have coherent := reachable.coherent
  have wellFormed := coherent.grammar.wellFormed
  obtain ⟨advances, answers⟩ := coherent.grammar.longestMatch coherent.inside text
  obtain ⟨found, isResult, finds⟩ := answers passes defined
  obtain ⟨meanings, means⟩ : ∃ meanings, List.Forall₂ (fun (meaning : Meaning) id =>
      (longestMatch lexicon.langs text lexicon.grammar).2.Trusts meaning.sense ∧
        lexicon.grammar.arena.Means meaning.sense id meaning.lang) meanings lexicon.langs := by
    refine exists_forall₂ fun id member => ?_
    rcases kind id member with acyclic | ⟨free, complete⟩
    · obtain ⟨lang, denotes⟩ := wellFormed.exists_denotes acyclic
      exact ⟨⟨.structural, lang⟩, ⟨nofun, nofun⟩, denotes⟩
    · exact ⟨⟨.least, _⟩, complete.trusts .least, free, rfl⟩
  have trusted : (longestMatch lexicon.langs text lexicon.grammar).2.TrustsAll meanings :=
    fun meaning member => by
      obtain ⟨_, _, trusted, _⟩ := Arena.exists_related_left means.flip meaning member
      exact trusted
  have tracked : lexicon.grammar.TracksAll [] meanings (lexicon.langs.map some) :=
    List.forall₂_map_right_iff.mpr (means.imp fun _ _ means => means.2)
  have finds := finds meanings trusted tracked
  refine ⟨meanings.map Meaning.lang, found, ?_, isResult,
    fun rule length => finds.extent_eq_some_iff, finds.eq_none_iff⟩
  exact List.forall₂_map_right_iff.mpr
    (means.flip.imp fun _ _ means => wellFormed.speaks_of_means means.2)

/-- A lexicon of the rules `a` and `¬a`, the second one for texts to skip. -/
def charAndOthers : Lexicon String :=
  (skip (.expr ⟨4⟩) (rule "char" (.expr ⟨3⟩) (ofGrammar Grammar.complementOfChar)).2).2

theorem charAndOthers_reachable : charAndOthers.Reachable :=
  .skip _ (.rule _ _ (.start Grammar.complementOfChar_reachable) (by decide)) (by decide)

/-- The first rule accepts the first character, but the second one accepts more. -/
theorem longestMatch_extent_iff_charAndOthers :
    ∃ found, (longestMatch charAndOthers.langs ['a', 'b'] charAndOthers.grammar).1 = .ok found ∧
      found.map (Match.extent ['a', 'b']) = some (1, 2) := by
  have char : charAndOthers.grammar.arena.Denotes ⟨3⟩ {['a']} := .intro (fun _ => 0) nofun
  have others : charAndOthers.grammar.arena.Denotes ⟨4⟩ {['a']}ᶜ :=
    .intro (fun _ => {['a']}) fun operand member => by
      obtain rfl : operand = ⟨3⟩ := List.mem_singleton.mp member
      exact char
  have wellFormed := charAndOthers_reachable.coherent.grammar.wellFormed
  have speaksChar : charAndOthers.grammar.arena.Speaks ⟨3⟩ {['a']} :=
    .inl ⟨wellFormed.acyclic_of_denotes char, char⟩
  have speaksOthers : charAndOthers.grammar.arena.Speaks ⟨4⟩ {['a']}ᶜ :=
    .inl ⟨wellFormed.acyclic_of_denotes others, others⟩
  have acyclic : ∀ id ∈ [⟨3⟩, ⟨4⟩], charAndOthers.grammar.arena.Acyclic id :=
    List.forall_mem_cons.mpr ⟨wellFormed.acyclic_of_denotes char,
      List.forall_mem_singleton.mpr (wellFormed.acyclic_of_denotes others)⟩
  obtain ⟨languages, found, speaks, isResult, isFound, _⟩ :=
    longestMatch_extent_iff charAndOthers_reachable (by decide) ['a', 'b']
      (fun _ _ => Arena.defined_of_forall (by decide)) fun id member => .inl (acyclic id member)
  refine ⟨found, isResult, (isFound 1 2).mpr ⟨['a', 'b'], ?_, by decide⟩⟩
  obtain _ | ⟨first, _ | ⟨second, _ | _⟩⟩ :
      List.Forall₂ charAndOthers.grammar.arena.Speaks [⟨3⟩, ⟨4⟩] languages := speaks
  rw [wellFormed.speaks_unique first speaksChar, wellFormed.speaks_unique second speaksOthers]
  exact
    { begins := List.prefix_rfl
      nonempty := nofun
      mem := ⟨_, rfl, fun member => nomatch member⟩
      first := by
        intro earlier isEarlier lang isLang
        obtain rfl : earlier = 0 := by omega
        cases isLang
        exact nofun
      longest := fun other begins _ _ => byteLength_le_of_begins begins }

end Lexicon

end Residual
