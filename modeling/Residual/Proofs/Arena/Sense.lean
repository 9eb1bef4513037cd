import Residual.Proofs.Arena.Meaning

/-!
# The two senses of an expression

`Means` says that an expression has a language, by structural recursion or by the least solution.
Both obey the same laws: what an expression means is what its operator makes of what its operands
mean (`Means.operands`, `Means.intro`), bisimilar expressions mean the same, and new slots change
nothing.
-/

set_option autoImplicit false

namespace Residual

/-- The ways in which an expression can have a language: by structural recursion, or, if no
complement can be reached, by the least solution. -/
inductive Sense where
  | structural
  | least

namespace Arena

open Interpretation

variable {arena before after : Arena} {id id' root operand : ExprId} {e : Expr ExprId}
  {lang lang' : Language Char} {sense : Sense}

/-- The expression has the language in the given sense. -/
def Means (arena : Arena) : Sense → ExprId → Language Char → Prop
  | .structural, id, lang => arena.Denotes id lang
  | .least, id, lang => arena.ComplementFree id ∧ words.least arena id = lang

/-- The two numbers mean the same in this arena and in every later one. -/
def Alike (arena : Arena) (senses : Sense → Prop) (x y : ExprId) : Prop :=
  ∀ later, arena.Grows later → later.WellFormed → ∀ sense, senses sense → ∀ lang,
    later.Means sense x lang ↔ later.Means sense y lang

/-- The second number means what the first one does, in this arena and in every later one. -/
def Keeps (arena : Arena) (senses : Sense → Prop) (id value : ExprId) : Prop :=
  ∀ later, arena.Grows later → later.WellFormed → ∀ sense, senses sense → ∀ lang,
    later.Means sense id lang → later.Means sense value lang

theorem Keeps.refl (arena : Arena) (senses : Sense → Prop) (id : ExprId) :
    arena.Keeps senses id id :=
  fun _ _ _ _ _ _ means => means

theorem Keeps.later {senses senses' : Sense → Prop} {value : ExprId}
    (keeps : before.Keeps senses id value) (growing : before.Grows after)
    (fewer : ∀ sense, senses' sense → senses sense) : after.Keeps senses' id value :=
  fun later onward wellFormed sense trusted =>
    keeps later (growing.trans onward) wellFormed sense (fewer sense trusted)

theorem Keeps.trans {senses : Sense → Prop} {value value' : ExprId}
    (first : arena.Keeps senses id value) (second : arena.Keeps senses value value') :
    arena.Keeps senses id value' :=
  fun later growing wellFormed sense trusted lang means =>
    second later growing wellFormed sense trusted lang
      (first later growing wellFormed sense trusted lang means)

/-- The second number has at most the strings of the first one, in this arena and in every later
one in which the first one reaches no complement. -/
def Narrows (arena : Arena) (id value : ExprId) : Prop :=
  ∀ later, arena.Grows later → later.WellFormed → later.ComplementFree id →
    later.ComplementFree value ∧ words.least later value ≤ words.least later id

theorem Narrows.refl (arena : Arena) (id : ExprId) : arena.Narrows id id :=
  fun _ _ _ free => ⟨free, le_rfl⟩

theorem Narrows.later {value : ExprId} (narrows : before.Narrows id value)
    (growing : before.Grows after) : after.Narrows id value :=
  fun later onward => narrows later (growing.trans onward)

theorem Narrows.trans {value value' : ExprId} (first : arena.Narrows id value)
    (second : arena.Narrows value value') : arena.Narrows id value' := by
  intro later growing wellFormed free
  obtain ⟨free, atMost⟩ := first later growing wellFormed free
  obtain ⟨free, atMost'⟩ := second later growing wellFormed free
  exact ⟨free, atMost'.trans atMost⟩

/-- The second number reaches only operators of some kind if the first one does, in this arena and
in every later one. -/
def Confines (arena : Arena) (kind : Expr Unit → Prop) (id value : ExprId) : Prop :=
  ∀ later, arena.Grows later → later.WellFormed → later.Throughout id kind →
    later.Throughout value kind

theorem Confines.later {kind : Expr Unit → Prop} {value : ExprId}
    (confines : before.Confines kind id value) (growing : before.Grows after) :
    after.Confines kind id value :=
  fun later onward => confines later (growing.trans onward)

theorem Confines.of_resolve {kind : Expr Unit → Prop} {value : ExprId}
    (confines : arena.Confines kind (arena.resolve id) value) (wellFormed : arena.WellFormed) :
    arena.Confines kind id value := by
  intro later growing wellFormed' throughout
  refine confines later growing wellFormed' ((throughout_congr ?_).mpr throughout)
  exact growing.resolve_resolve wellFormed wellFormed' id

theorem Denotes.of_get (same : arena.get id = before.get id')
    (operands : ∀ o ∈ (before.get id').operands, ∀ lang, before.Denotes o lang →
      arena.Denotes o lang)
    (denotes : before.Denotes id' lang) : arena.Denotes id lang := by
  cases denotes with
  | intro L below =>
      rw [← same]
      refine .intro L fun o member => ?_
      rw [same] at member
      exact operands o member _ (below o member)

theorem Denotes.of_stands (stands : arena.Stands id e) {L : ExprId → Language Char}
    (below : ∀ o ∈ e.operands, arena.Denotes o (L o)) : arena.Denotes id (e.map L).language := by
  rw [← get_of_stands stands] at below ⊢
  exact .intro L below

theorem Denotes.unique (denotes : arena.Denotes id lang) (denotes' : arena.Denotes id lang') :
    lang = lang' := by
  induction denotes generalizing lang' with
  | @intro id L _ inductionHypothesis =>
      cases denotes' with
      | intro L' below' =>
          have agree : ∀ o ∈ (arena.get id).operands, L o = L' o := fun o member =>
            inductionHypothesis o member (below' o member)
          have same : (arena.get id).map L = (arena.get id).map L' :=
            Expr.ext_of_shape (by simp) (by simpa using agree)
          rw [same]

theorem exists_denoted {operands : List ExprId}
    (denoted : ∀ o ∈ operands, ∃ lang, arena.Denotes o lang) :
    ∃ L : ExprId → Language Char, ∀ o ∈ operands, arena.Denotes o (L o) := by
  classical
  refine ⟨fun o => if denoted : ∃ lang, arena.Denotes o lang then denoted.choose else 0, ?_⟩
  intro o member
  dsimp only
  rw [dif_pos (denoted o member)]
  exact (denoted o member).choose_spec

theorem forall₂_mem {A B : Type} {Related : A → B → Prop} {xs : List A} {ys : List B}
    (related : List.Forall₂ Related xs ys) :
    List.Forall₂ (fun x y => x ∈ xs ∧ y ∈ ys ∧ Related x y) xs ys := by
  induction related with
  | nil => exact .nil
  | cons here _ inductionHypothesis =>
      refine .cons ⟨by simp, by simp, here⟩ ?_
      exact inductionHypothesis.imp fun _ _ ⟨inLeft, inRight, there⟩ =>
        ⟨by simp [inLeft], by simp [inRight], there⟩

theorem exists_related_left {A B : Type} {Related : A → B → Prop} {xs : List A} {ys : List B}
    (related : List.Forall₂ Related xs ys) (y : B) (member : y ∈ ys) :
    ∃ x ∈ xs, Related x y := by
  induction related with
  | nil => simp at member
  | @cons x y' xs ys here _ inductionHypothesis =>
      rcases List.mem_cons.mp member with rfl | member
      · exact ⟨x, by simp, here⟩
      · obtain ⟨x, member, there⟩ := inductionHypothesis member
        exact ⟨x, by simp [member], there⟩

namespace WellFormed

variable (wellFormed : arena.WellFormed)

include wellFormed

theorem complementFree_iff : arena.ComplementFree id ↔
    (arena.get id).shape ≠ .not () ∧
      ∀ o ∈ (arena.get id).operands, arena.ComplementFree o :=
  wellFormed.throughout_iff

/-- Without complements the least solution satisfies the equation of an expression. -/
theorem least_words (free : (arena.get id).shape ≠ .not ()) :
    words.least arena id = ((arena.get id).map (words.least arena)).language := by
  rw [← words_apply (by rwa [Expr.shape_map])]
  exact words.least_get rfl wellFormed id

theorem means_of_resolve_eq (same : arena.resolve id = arena.resolve id')
    (means : arena.Means sense id' lang) : arena.Means sense id lang := by
  have sameGet : arena.get id = arena.get id' := by
    rw [← wellFormed.get_resolve id, same, wellFormed.get_resolve]
  cases sense with
  | structural => exact Denotes.of_get sameGet (fun _ _ _ denotes => denotes) means
  | least =>
      refine ⟨?_, (words.least_eq_of_resolve wellFormed same).trans means.2⟩
      have free := means.1
      unfold ComplementFree Throughout Reaches at *
      rwa [same]

theorem means_resolve : arena.Means sense (arena.resolve id) lang ↔ arena.Means sense id lang :=
  ⟨wellFormed.means_of_resolve_eq (wellFormed.resolve_resolve id).symm,
    wellFormed.means_of_resolve_eq (wellFormed.resolve_resolve id)⟩

/-- The operands of an expression with a language have languages, from which it is made. -/
theorem means_operands (means : arena.Means sense id lang) :
    (sense = .least → (arena.get id).shape ≠ .not ()) ∧
      ∃ L : ExprId → Language Char,
        (∀ o ∈ (arena.get id).operands, arena.Means sense o (L o)) ∧
          lang = ((arena.get id).map L).language := by
  cases sense with
  | structural =>
      refine ⟨nofun, ?_⟩
      cases means with
      | intro L below => exact ⟨L, below, rfl⟩
  | least =>
      obtain ⟨free, isLang⟩ := means
      obtain ⟨here, below⟩ := wellFormed.complementFree_iff.mp free
      exact ⟨fun _ => here, words.least arena, fun o member => ⟨below o member, rfl⟩,
        isLang ▸ wellFormed.least_words here⟩

/-- An expression whose operands have languages has the language that is made from them. -/
theorem means_intro (noComplement : sense = .least → (arena.get id).shape ≠ .not ())
    {L : ExprId → Language Char}
    (below : ∀ o ∈ (arena.get id).operands, arena.Means sense o (L o)) :
    arena.Means sense id ((arena.get id).map L).language := by
  cases sense with
  | structural => exact .intro L below
  | least =>
      refine ⟨wellFormed.complementFree_iff.mpr
        ⟨noComplement rfl, fun o member => (below o member).1⟩, ?_⟩
      rw [wellFormed.least_words (noComplement rfl)]
      have same : (arena.get id).map (words.least arena) = (arena.get id).map L :=
        Expr.ext_of_shape (by simp) (by simpa using fun o member => (below o member).2)
      rw [same]

theorem means_of_stands (stands : arena.Stands id e)
    (noComplement : sense = .least → e.shape ≠ .not ()) {L : ExprId → Language Char}
    (below : ∀ o ∈ e.operands, arena.Means sense o (L o)) :
    arena.Means sense id (e.map L).language := by
  rw [← get_of_stands stands] at noComplement below ⊢
  exact wellFormed.means_intro noComplement below

theorem operands_of_stands (stands : arena.Stands id e) (means : arena.Means sense id lang) :
    (sense = .least → e.shape ≠ .not ()) ∧
      ∃ L : ExprId → Language Char, (∀ o ∈ e.operands, arena.Means sense o (L o)) ∧
        lang = (e.map L).language := by
  rw [← get_of_stands stands]
  exact wellFormed.means_operands means

/-! ## Bisimilar expressions -/

theorem throughout_of_bisimulation {Related : ExprId → ExprId → Prop}
    (bisimulation : arena.IsBisimulation Related)
    (related : Related (arena.resolve id) (arena.resolve id')) {kind : Expr Unit → Prop}
    (onNil : kind .nil) (throughout : arena.Throughout id kind) :
    arena.Throughout id' kind := by
  let other := flag fun operator => ¬ kind operator
  have same : other.least arena id' → other.least arena id :=
    other.least_le_of_bisimulation wellFormed bisimulation.flip related
  by_contra elsewhere
  refine absurd throughout ((wellFormed.least_flag_iff onNil).mp (same ?_))
  exact (wellFormed.least_flag_iff onNil).mpr elsewhere

theorem means_of_bisimulation {Related : ExprId → ExprId → Prop}
    (bisimulation : arena.IsBisimulation Related)
    (related : Related (arena.resolve id) (arena.resolve id'))
    (means : arena.Means sense id lang) : arena.Means sense id' lang := by
  cases sense with
  | structural =>
      induction means generalizing id' with
      | @intro id L below inductionHypothesis =>
          rcases bisimulation _ _ related with
            same | ⟨e, e', found, found', sameShape, operands⟩
          · exact wellFormed.means_of_resolve_eq same.symm (.intro L below)
          · rw [get_of_stands found] at *
            -- the operands of the second expression have the languages of those of the first
            have matched : List.Forall₂ (fun o o' => arena.Denotes o' (L o))
                e.operands e'.operands :=
              (forall₂_mem operands).imp fun o o' ⟨member, _, related⟩ =>
                inductionHypothesis o member related
            obtain ⟨L', below'⟩ := exists_denoted fun o' member => by
              obtain ⟨o, _, denotes⟩ := exists_related_left matched o' member
              exact ⟨_, denotes⟩
            have sameOperands : e.operands.map L = e'.operands.map L' := by
              rw [← List.forall₂_eq_eq_eq, List.forall₂_map_left_iff, List.forall₂_map_right_iff]
              exact (forall₂_mem matched).imp fun o o' ⟨_, member, denotes⟩ =>
                denotes.unique (below' o' member)
            have same : e.map L = e'.map L' :=
              Expr.ext_of_shape (by simpa using sameShape) (by simpa using sameOperands)
            rw [same, ← get_of_stands found']
            refine .intro L' fun o member => below' o ?_
            rwa [get_of_stands found'] at member
  | least =>
      refine ⟨wellFormed.throughout_of_bisimulation bisimulation related nofun means.1, ?_⟩
      rw [← means.2]
      exact le_antisymm
        (words.least_le_of_bisimulation wellFormed bisimulation.flip related)
        (words.least_le_of_bisimulation wellFormed bisimulation related)

end WellFormed

/-! ## New slots -/

namespace Extends

variable (extending : before.Extends after) (wellFormed : before.WellFormed)
  (wellFormed' : after.WellFormed) (inside : id.number < before.size)

include extending wellFormed wellFormed' inside

theorem throughout_iff {kind : Expr Unit → Prop} (onNil : kind .nil) :
    after.Throughout id kind ↔ before.Throughout id kind := by
  rw [← not_iff_not, ← wellFormed.least_flag_iff onNil, ← wellFormed'.least_flag_iff onNil,
    Interpretation.least_extends _ extending wellFormed inside]

theorem means_iff : after.Means sense id lang ↔ before.Means sense id lang := by
  cases sense with
  | structural =>
      constructor <;> intro means
      · induction means with
        | @intro id L below inductionHypothesis =>
            have sameGet := extending.get wellFormed inside
            rw [sameGet]
            refine .intro L fun o member => ?_
            rw [← sameGet] at member
            refine inductionHypothesis o member ?_
            rw [sameGet] at member
            exact wellFormed.operand_lt_of_get member
      · induction means with
        | @intro id L below inductionHypothesis =>
            have sameGet := extending.get wellFormed inside
            rw [← sameGet]
            refine .intro L fun o member => ?_
            rw [sameGet] at member
            exact inductionHypothesis o member (wellFormed.operand_lt_of_get member)
  | least =>
      exact and_congr (extending.throughout_iff wellFormed wellFormed' inside nofun)
        (by rw [words.least_extends extending wellFormed inside])

end Extends

end Arena

end Residual
