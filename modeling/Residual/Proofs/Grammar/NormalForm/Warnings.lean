import Residual.Proofs.Grammar.NormalForm.Canonical

/-!
# What canonicalization warns of

While an expression is simplified nothing is reported but the passes of the analyses.  A
canonicalization warns of its expression exactly when the expression still changed in the last
round.
-/

set_option autoImplicit false

namespace Residual

/-- The report of an expression that did not become canonical. -/
def Event.isNotCanonical : Event → Bool
  | .notCanonical _ _ => true
  | _ => false

/-- The reports of expressions that did not become canonical. -/
def Journal.notCanonical (journal : Journal) : List Event :=
  journal.events.toList.filter Event.isNotCanonical

namespace Journal

variable {journal : Journal} {event : Event}

theorem recording_note : (journal.note event).recording = journal.recording := by
  unfold note
  split <;> rfl

theorem notCanonical_note_of_isNotCanonical (recording : journal.recording = true)
    (warns : event.isNotCanonical = true) :
    (journal.note event).notCanonical = journal.notCanonical ++ [event] := by
  simp [note, notCanonical, recording, warns]

theorem notCanonical_note_of_not (silent : event.isNotCanonical = false) :
    (journal.note event).notCanonical = journal.notCanonical := by
  unfold note
  split
  · simp [notCanonical, silent]
  · rfl

end Journal

namespace Grammar

open Memo

variable {grammar before after : Grammar} {id x y : ExprId}

section Rounds

variable {related : Grammar → Grammar → Prop} (coherent : grammar.Coherent)

include coherent

theorem Coherent.equal_keeps (inside : x.number < grammar.arena.size)
    (inside' : y.number < grammar.arena.size) (keeps : Keeps related (computeEqual x y)) :
    Gives (Grammar.equal x y) grammar fun _ after => related grammar after :=
  (((yields_computeEqual coherent.wellFormed coherent.equalities inside inside').and_ensures
    (keeps grammar)).settle true).mono fun _ _ both => both.2

theorem Coherent.simplify_keeps (inside : id.number < grammar.arena.size)
    (keeps : Keeps related (computeSimplified id)) :
    Gives (Grammar.simplify id) grammar fun _ after => related grammar after :=
  (((yields_computeSimplified coherent.simplificationSide coherent.simplified.toSimplifiedKept
    inside).and_ensures (keeps grammar)).settle id).mono fun _ _ both => both.2

/-- What the parts of a simplification keep is kept by all rounds of a canonicalization. -/
theorem Coherent.simplifyWithin_keeps (inside : id.number < grammar.arena.size)
    (keeps : SimplificationKeeps related) (simplified : ∀ id, Keeps related (computeSimplified id))
    (passes done : Nat) :
    Gives (Grammar.simplifyWithin id done passes) grammar fun _ after => related grammar after := by
  induction passes generalizing grammar id done with
  | zero => exact keeps.refl grammar
  | succ passes inductionHypothesis =>
      refine (gives_bind _ _ _).mpr (((coherent.simplify inside).and
        (coherent.simplify_keeps inside (simplified id))).mono ?_)
      rintro next between ⟨⟨normalizes, _⟩, kept⟩
      have coherent := normalizes.advances.coherent
      have inside := normalizes.advances.lt_size inside
      refine (gives_bind _ _ _).mpr (((coherent.equal inside normalizes.inside).and
        (coherent.equal_keeps inside normalizes.inside (keeps.equal _ _))).mono ?_)
      rintro isEqual later ⟨⟨advances, _⟩, kept'⟩
      split
      · exact (gives_pure _ _).mpr (keeps.trans kept kept')
      · exact (inductionHypothesis advances.coherent (advances.lt_size normalizes.inside)
          (done + 1)).mono fun _ _ kept'' => keeps.trans (keeps.trans kept kept') kept''

end Rounds

/-- Meanwhile no expression was reported that did not become canonical. -/
structure Quiet (before after : Grammar) : Prop where
  recording : after.journal.recording = before.journal.recording
  notCanonical : after.journal.notCanonical = before.journal.notCanonical

theorem Quiet.refl (grammar : Grammar) : grammar.Quiet grammar :=
  ⟨rfl, rfl⟩

theorem Quiet.trans ⦃first second third : Grammar⦄ (earlier : first.Quiet second)
    (later : second.Quiet third) : first.Quiet third :=
  ⟨later.recording.trans earlier.recording, later.notCanonical.trans earlier.notCanonical⟩

theorem quiet_note {event : Event} (silent : event.isNotCanonical = false) (grammar : Grammar) :
    grammar.Quiet (grammar.note event) :=
  ⟨Journal.recording_note, Journal.notCanonical_note_of_not silent⟩

theorem keeps_quiet_analysis {Key Value : Type} [BEq Key] [Hashable Key] [BEq Value]
    (table : Tables → Table Key Value)
    (modifyTable : (Table Key Value → Table Key Value) → Tables → Tables) (bottom : Value)
    (equation : Arena → Key → Reading Key Value Value) (fuel : Nat) (key : Key) :
    Keeps Quiet ((analysis table modifyTable bottom equation).solve fuel key) := by
  have preserves : (analysis table modifyTable bottom equation).Preserves Quiet :=
    { refl := .refl
      trans := .trans
      modifyTable := fun _ _ _ => ⟨rfl, rfl⟩
      noteRepeated := quiet_note rfl
      noteExhausted := fun _ => quiet_note rfl
      bottom := fun _ => keeps_pure .refl _
      step := fun keeps key => keeps_get_bind fun state =>
        keeps_run .refl .trans keeps (equation state.arena key)
      finish := fun _ _ value => keeps_pure .refl value }
  exact preserves.keeps_solve fuel key

theorem simplificationKeeps_quiet : SimplificationKeeps Quiet where
  refl := .refl
  trans := .trans
  push _ := keeps_lift _ fun _ => ⟨rfl, rfl⟩
  height _ := keeps_get_bind fun _ => keeps_quiet_analysis _ _ _ _ _ _
  equal _ _ := keeps_get_bind fun _ => keeps_quiet_analysis _ _ _ _ _ _

theorem keeps_quiet_computeSimplified (id : ExprId) : Keeps Quiet (computeSimplified id) := by
  have preserves : simplifications.Preserves Quiet :=
    { refl := .refl
      trans := .trans
      modifyTable := fun _ _ _ => ⟨rfl, rfl⟩
      noteRepeated := quiet_note rfl
      noteExhausted := fun _ => quiet_note rfl
      bottom := fun _ => keeps_lift reserve fun _ => ⟨rfl, rfl⟩
      step := simplificationKeeps_quiet.simplifyStep
      finish := fun _ link value => Keeps.bind Quiet.trans
        (keeps_lift (bindLink link value) fun _ => ⟨rfl, rfl⟩) fun _ => keeps_pure .refl value }
  exact keeps_get_bind fun _ => preserves.keeps_solve _ _

/-- After fewer rounds than are allowed the expression does not change any more. -/
def Canonicalizes (grammar : Grammar) (id : ExprId) : Prop :=
  (simplifyWithin id 0 grammar.config.simplify.maxPasses grammar).1.stableAfter ≠ none

/-- Nothing is reported of an expression that becomes canonical, and a journal that is recording
tells of every other one. -/
theorem Coherent.canonicalize_quiet (coherent : grammar.Coherent)
    (inside : id.number < grammar.arena.size) :
    Gives (Grammar.canonicalize id) grammar fun _ after =>
      (grammar.Canonicalizes id → grammar.Quiet after) ∧
        (grammar.journal.recording = true → grammar.Quiet after → grammar.Canonicalizes id) := by
  have rounds : Gives (Grammar.simplifyWithin id 0 grammar.config.simplify.maxPasses) grammar
      fun result between => grammar.Quiet between ∧
        (grammar.Canonicalizes id ↔ result.stableAfter ≠ none) :=
    ⟨coherent.simplifyWithin_keeps inside simplificationKeeps_quiet keeps_quiet_computeSimplified _ 0,
      .rfl⟩
  refine (gives_bind _ _ _).mpr ((gives_get _).mpr ?_)
  refine (gives_bind _ _ _).mpr (rounds.mono ?_)
  rintro ⟨expr, _ | used⟩ between ⟨quiet, canonicalizes_iff⟩
  · refine ⟨fun canonicalizes => absurd rfl (canonicalizes_iff.mp canonicalizes), ?_⟩
    intro recording silent
    have unchanged := silent.notCanonical.trans quiet.notCanonical.symm
    change (between.journal.note (.notCanonical id _)).notCanonical = _ at unchanged
    rw [Journal.notCanonical_note_of_isNotCanonical (quiet.recording.trans recording) rfl]
      at unchanged
    simp at unchanged
  · exact ⟨fun _ => quiet.trans (quiet_note rfl between), fun _ _ => canonicalizes_iff.mpr nofun⟩

end Grammar

end Residual
