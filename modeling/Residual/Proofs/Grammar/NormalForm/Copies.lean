import Residual.Grammar.NormalForm
import Residual.Proofs.Expr.Related
import Residual.Proofs.Grammar.NormalForm.Orderly

/-!
# Copies of recursive expressions

A simplification rebuilds a cycle operator by operator, and each operator of what it builds is a copy
of an operator of the original.  Its operands stand for the simplified forms of the original
operands, or for the links of those that are still being simplified.

This is so of orderly expressions.  The operands of a union may be exchanged, and then the first one has
no operands.  And what is firm stays so.
-/

set_option autoImplicit false

namespace Residual

variable {arena before after : Arena} {root id x : ExprId} {e : Expr ExprId}

/-- A repetition without a count is written as an iteration. -/
def Expr.withStar {A : Type} : Expr A → Expr A
  | .rep lang .infinite => .star lang
  | e => e

namespace Expr

variable {A : Type} {e : Expr A}

@[simp]
theorem operands_withStar (e : Expr A) : e.withStar.operands = e.operands := by
  cases e with
  | rep _ count => cases count <;> rfl
  | _ => rfl

theorem withStar_eq_alt {left right : A} (same : e.withStar = .alt left right) :
    e = .alt left right := by
  cases e with
  | rep _ count => cases count <;> cases same
  | _ => exact same

theorem withStar_ne_rep {lang : A} : e.withStar ≠ .rep lang .infinite := by
  intro same
  cases e with
  | rep _ count => cases count <;> cases same
  | _ => cases same

theorem withStar_eq_self (counted : ∀ lang, e ≠ .rep lang .infinite) : e.withStar = e := by
  cases e with
  | rep lang count =>
      cases count with
      | finite _ => rfl
      | infinite => exact absurd rfl (counted lang)
  | _ => rfl

end Expr

namespace Grammar

open Memo

variable {grammar before after : Grammar} {id key link value answer origin copy x y : ExprId}
  {e e' : Expr ExprId}

/-! ## What stands for the simplified form of an expression -/

/-- The simplified form of an expression is known. -/
def SimplifiesTo (grammar : Grammar) (x y : ExprId) : Prop :=
  grammar.tables.simplified.lookup x = .known y

/-- The expression is being simplified, and the link stands for its result. -/
def Running (grammar : Grammar) (key link : ExprId) : Prop :=
  grammar.tables.simplified.pending[key]? = some ⟨link, .running⟩

/-- The answer stands for the simplified form of the key, or for the link of its result. -/
def Reflects (grammar : Grammar) (key answer : ExprId) : Prop :=
  ∃ value, (grammar.SimplifiesTo key value ∨ grammar.Running key value) ∧
    grammar.arena.resolve answer = grammar.arena.resolve value

/-- The same operator, but for stars, on what stands for the simplified operands.  Those of a union are
exchanged if its second one has no operands. -/
inductive Repeats (grammar : Grammar) (id copy : ExprId) : Prop where
  | straight {e e' : Expr ExprId} : grammar.arena.slot? id = some (.expr e) →
      grammar.arena.slot? copy = some (.expr e'.withStar) →
      e.Related (fun o o' => grammar.Reflects (grammar.arena.resolve o) o') e' →
      Repeats grammar id copy
  | swapped {left right l r : ExprId} : grammar.arena.slot? id = some (.expr (.alt left right)) →
      grammar.arena.slot? copy = some (.expr (.alt r l)) →
      grammar.Reflects (grammar.arena.resolve left) l →
      grammar.Reflects (grammar.arena.resolve right) r → grammar.arena.IsLeaf right →
      Repeats grammar id copy

/-- An operator that repeats another one, and is new if it is not the original. -/
structure Duplicates (grammar : Grammar) (id copy : ExprId) : Prop where
  later : copy = id ∨ id.number < copy.number
  repeats : grammar.Repeats id copy

/-- How a sequence goes on in its simplified form: as `∅`, as a sequence of what stands for the
simplified operands, or as one of them if the other one is `ε`. -/
inductive Sequels (grammar : Grammar) (first second value : ExprId) : Prop where
  | nil : grammar.arena.Stands value .nil → Sequels grammar first second value
  | cat {f s : ExprId} : grammar.Reflects (grammar.arena.resolve first) f →
      grammar.Reflects (grammar.arena.resolve second) s → grammar.arena.Stands value (.cat f s) →
      Sequels grammar first second value
  | first {f s : ExprId} : grammar.Reflects (grammar.arena.resolve first) f →
      grammar.Reflects (grammar.arena.resolve second) s → grammar.arena.Stands s .empty →
      grammar.arena.resolve value = grammar.arena.resolve f → Sequels grammar first second value
  | second {f s : ExprId} : grammar.Reflects (grammar.arena.resolve first) f →
      grammar.Reflects (grammar.arena.resolve second) s → grammar.arena.Stands f .empty →
      grammar.arena.resolve value = grammar.arena.resolve s → Sequels grammar first second value

/-- How what is firm goes on in its simplified form. -/
structure Hardens (grammar : Grammar) (id value : ExprId) : Prop where
  letter : ∀ {e}, grammar.arena.slot? id = some (.expr e) → e.IsLetter →
    ∃ e', grammar.arena.Stands value e' ∧ e'.IsLetter
  tight : ∀ {e}, grammar.arena.slot? id = some (.expr e) → e.IsTight → grammar.arena.IsTight value
  cat : ∀ {first second}, grammar.arena.slot? id = some (.expr (.cat first second)) →
    grammar.Sequels first second value

/-- How an expression goes on in its simplified form: as a tree, as the link of something that is
being simplified, or as a copy of something that can be reached. -/
inductive TurnsInto (grammar : Grammar) (id value : ExprId) : Prop where
  | closed : grammar.arena.Closed (grammar.arena.resolve value) → TurnsInto grammar id value
  | linked {key link : ExprId} : grammar.arena.Reaches id key → grammar.Running key link →
      grammar.arena.resolve value = grammar.arena.resolve link → TurnsInto grammar id value
  | copied {origin : ExprId} : grammar.arena.Reaches id origin →
      origin = id ∨ grammar.Reflects origin value →
      grammar.Duplicates origin (grammar.arena.resolve value) → TurnsInto grammar id value

theorem reflects_of_told (told : grammar.SimplifiesTo key value) : grammar.Reflects key value :=
  ⟨value, .inl told, rfl⟩

theorem reflects_of_running (running : grammar.Running key link) : grammar.Reflects key link :=
  ⟨link, .inr running, rfl⟩

theorem Reflects.of_resolve_eq (reflects : grammar.Reflects key value)
    (same : grammar.arena.resolve answer = grammar.arena.resolve value) :
    grammar.Reflects key answer := by
  obtain ⟨target, stands, isTarget⟩ := reflects
  exact ⟨target, stands, same.trans isTarget⟩

/-- What becomes of something below an expression becomes of the expression. -/
theorem TurnsInto.of_reaches (turns : grammar.TurnsInto key value)
    (wellFormed : grammar.arena.WellFormed) (reaches : grammar.arena.Reaches id key)
    (reflects : grammar.Reflects key value)
    (same : grammar.arena.resolve answer = grammar.arena.resolve value) :
    grammar.TurnsInto id answer := by
  cases turns with
  | closed closed => exact .closed (same ▸ closed)
  | linked onward running isLink =>
      exact .linked (wellFormed.reaches_trans reaches onward) running (same.trans isLink)
  | copied onward isOrigin copies =>
      refine .copied (wellFormed.reaches_trans reaches onward) (.inr ?_) (same ▸ copies)
      rcases isOrigin with rfl | isOrigin
      · exact reflects.of_resolve_eq same
      · exact isOrigin.of_resolve_eq same

/-- An operand of a copy stands for the simplified form of an operand of the original. -/
theorem Repeats.exists_operand (repeats : grammar.Repeats id copy)
    (found : grammar.arena.slot? copy = some (.expr e')) {o' : ExprId} (member : o' ∈ e'.operands) :
    ∃ e o, grammar.arena.slot? id = some (.expr e) ∧ o ∈ e.operands ∧
      grammar.Reflects (grammar.arena.resolve o) o' := by
  cases repeats with
  | @straight e e₁ found₀ isCopy related =>
      obtain rfl : e' = e₁.withStar := by simpa [found] using isCopy
      rw [Expr.operands_withStar] at member
      obtain ⟨o, isOperand, reflects⟩ := Arena.exists_related_left related.operands o' member
      exact ⟨e, o, found₀, isOperand, reflects⟩
  | @swapped left right l r found₀ isCopy isLeft isRight _ =>
      obtain rfl : e' = .alt r l := by simpa [found] using isCopy
      have member : o' = r ∨ o' = l := by simpa [Expr.operands] using member
      rcases member with rfl | rfl
      · exact ⟨_, right, found₀, by simp [Expr.operands], isRight⟩
      · exact ⟨_, left, found₀, by simp [Expr.operands], isLeft⟩

theorem Repeats.exists_expr (repeats : grammar.Repeats id copy) :
    ∃ e, grammar.arena.slot? copy = some (.expr e) := by
  cases repeats with
  | straight _ isCopy _ => exact ⟨_, isCopy⟩
  | swapped _ isCopy _ _ _ => exact ⟨_, isCopy⟩

namespace Sequels

variable {first second : ExprId}

theorem solid_of_first (sequels : grammar.Sequels first second value)
    (solid : ∀ {f}, grammar.Reflects (grammar.arena.resolve first) f → grammar.arena.Solid f) :
    grammar.arena.Solid value := by
  cases sequels with
  | nil isNil => exact .letter isNil ⟨rfl, nofun⟩
  | cat isFirst _ isCat => exact .first isCat (solid isFirst)
  | first isFirst _ _ same => exact (solid isFirst).of_resolve_eq same
  | second isFirst _ isEmpty _ => exact absurd isEmpty (solid isFirst).not_empty

theorem solid_of_second (sequels : grammar.Sequels first second value)
    (solid : ∀ {s}, grammar.Reflects (grammar.arena.resolve second) s → grammar.arena.Solid s) :
    grammar.arena.Solid value := by
  cases sequels with
  | nil isNil => exact .letter isNil ⟨rfl, nofun⟩
  | cat _ isSecond isCat => exact .second isCat (solid isSecond)
  | first _ isSecond isEmpty _ => exact absurd isEmpty (solid isSecond).not_empty
  | second _ isSecond _ same => exact (solid isSecond).of_resolve_eq same

end Sequels

/-- What becomes of an orderly expression. -/
structure Becomes (grammar : Grammar) (id value : ExprId) : Prop where
  turns : grammar.TurnsInto id value
  hardens : grammar.Hardens id value

/-- What is known of an orderly expression is what becomes of it. -/
def Tracked (grammar : Grammar) : Prop :=
  ∀ {x y : ExprId}, grammar.SimplifiesTo x y → grammar.arena.Orderly x → grammar.Becomes x y

namespace Tracked

variable (tracked : grammar.Tracked)

include tracked

theorem turns (wellFormed : grammar.arena.WellFormed)
    (orderly : grammar.arena.Orderly id) (reaches : grammar.arena.Reaches id key)
    (reflects : grammar.Reflects key answer) : grammar.TurnsInto id answer := by
  obtain ⟨value, told | running, same⟩ := reflects
  · exact (tracked told (orderly.of_reaches wellFormed reaches)).turns.of_reaches wellFormed
      reaches (reflects_of_told told) same
  · exact .linked reaches running same

variable (unbound : ∀ {key link}, grammar.Running key link →
  grammar.arena.slot? link = some (.link none))

include unbound

/-- What is known of an orderly expression is what becomes of it, or it stands for an unbound link. -/
theorem hardens_or_unbound (orderly : grammar.arena.Orderly key)
    (reflects : grammar.Reflects key answer) :
    (∃ value, grammar.Hardens key value ∧
      grammar.arena.resolve answer = grammar.arena.resolve value) ∨
      grammar.arena.slot? (grammar.arena.resolve answer) = some (.link none) := by
  obtain ⟨value, told | running, same⟩ := reflects
  · exact .inl ⟨value, (tracked told orderly).hardens, same⟩
  · have final := unbound running
    rw [same, Arena.resolve_of_final (by simp [final])]
    exact .inr final

/-- What is made of a sequence with a letter in it has a letter in it. -/
theorem solid (wellFormed : grammar.arena.WellFormed) (solid : grammar.arena.Solid id)
    (orderly : grammar.arena.Orderly (grammar.arena.resolve id))
    (reflects : grammar.Reflects (grammar.arena.resolve id) answer) :
    grammar.arena.Solid answer := by
  induction solid generalizing answer with
  | @unbound id isUnbound =>
      have defined := orderly.defined _ (grammar.arena.reaches_self _)
      rw [wellFormed.resolve_resolve, Arena.isUnbound_iff.mpr isUnbound] at defined
      cases defined
  | letter stands isLetter =>
      rcases tracked.hardens_or_unbound unbound orderly reflects with ⟨value, hardens, same⟩ | final
      · obtain ⟨e', stands', isLetter'⟩ := hardens.letter stands isLetter
        exact .letter ((Arena.stands_congr same).mpr stands') isLetter'
      · exact .unbound final
  | @first id first second stands _ inductionHypothesis =>
      have orderly' := orderly.of_reaches wellFormed
        (wellFormed.reaches_resolve_operand stands (o := first) (by simp [Expr.operands]))
      rcases tracked.hardens_or_unbound unbound orderly reflects with ⟨value, hardens, same⟩ | final
      · exact ((hardens.cat stands).solid_of_first (inductionHypothesis orderly')).of_resolve_eq same
      · exact .unbound final
  | @second id first second stands _ inductionHypothesis =>
      have orderly' := orderly.of_reaches wellFormed
        (wellFormed.reaches_resolve_operand stands (o := second) (by simp [Expr.operands]))
      rcases tracked.hardens_or_unbound unbound orderly reflects with ⟨value, hardens, same⟩ | final
      · exact ((hardens.cat stands).solid_of_second (inductionHypothesis orderly')).of_resolve_eq same
      · exact .unbound final

/-- What is made of something firm is firm. -/
theorem firm (wellFormed : grammar.arena.WellFormed) (firm : grammar.arena.Firm id)
    (orderly : grammar.arena.Orderly (grammar.arena.resolve id))
    (reflects : grammar.Reflects (grammar.arena.resolve id) answer) :
    grammar.arena.Firm answer := by
  rcases firm with ⟨e, stands, isTight⟩ | solid
  · rcases tracked.hardens_or_unbound unbound orderly reflects with ⟨value, hardens, same⟩ | final
    · exact .inl ((hardens.tight stands isTight).of_resolve_eq same)
    · exact .inr (.unbound final)
  · exact .inr (tracked.solid unbound wellFormed solid orderly reflects)

end Tracked

/-! ## What lasts -/

/-- The arena grows, and what stands for a simplified form still does so. -/
structure Carries (before after : Grammar) : Prop where
  grows : before.arena.Grows after.arena
  wellFormed : before.arena.WellFormed
  wellFormed' : after.arena.WellFormed
  told : ∀ {x y}, before.SimplifiesTo x y → after.SimplifiesTo x y
  running : ∀ {key link}, before.Running key link → after.Running key link ∨
    ∃ value, after.SimplifiesTo key value ∧ after.arena.resolve link = after.arena.resolve value

namespace Carries

variable (carries : before.Carries after)

include carries

theorem resolve_eq (same : before.arena.resolve x = before.arena.resolve y) :
    after.arena.resolve x = after.arena.resolve y := by
  have persists := carries.grows.resolve_resolve carries.wellFormed carries.wellFormed'
  rw [← persists x, same, persists y]

theorem reflects (reflects : before.Reflects key answer) : after.Reflects key answer := by
  obtain ⟨value, told | running, same⟩ := reflects
  · exact ⟨value, .inl (carries.told told), carries.resolve_eq same⟩
  · rcases carries.running running with stillRunning | ⟨value', told, isValue⟩
    · exact ⟨value, .inr stillRunning, carries.resolve_eq same⟩
    · exact ⟨value', .inl told, (carries.resolve_eq same).trans isValue⟩

section Defined

variable (inside : id.number < before.arena.size) (defined : before.arena.Defined id)

include inside defined

/-- What is reached from a defined expression is the end of its chain of links. -/
theorem resolve_of_reaches (reaches : before.arena.Reaches id x) : after.arena.resolve x = x := by
  obtain ⟨e, found⟩ := carries.wellFormed.exists_expr_of_reaches inside defined reaches
  exact Arena.resolve_of_expr (carries.grows.expr found)

theorem reaches (reaches : before.arena.Reaches id x) : after.arena.Reaches id x := by
  have reaches' := carries.grows.reaches carries.wellFormed carries.wellFormed' reaches
  rwa [carries.resolve_of_reaches inside defined reaches] at reaches'

theorem reflects_operand (found : before.arena.slot? id = some (.expr e)) {o o' : ExprId}
    (member : o ∈ e.operands) (reflects : before.Reflects (before.arena.resolve o) o') :
    after.Reflects (after.arena.resolve o) o' := by
  have isReached := carries.wellFormed.reaches_resolve_operand found member
  rw [← carries.grows.resolve_resolve carries.wellFormed carries.wellFormed',
    carries.resolve_of_reaches inside defined isReached]
  exact carries.reflects reflects

theorem repeats (repeats : before.Repeats id copy) : after.Repeats id copy := by
  cases repeats with
  | straight found isCopy related =>
      refine .straight (carries.grows.expr found) (carries.grows.expr isCopy) ?_
      exact related.imp_of_mem fun o member o' reflects =>
        carries.reflects_operand inside defined found member reflects
  | swapped found isCopy isLeft isRight isLeaf =>
      refine .swapped (carries.grows.expr found) (carries.grows.expr isCopy) ?_ ?_
        (isLeaf.grows carries.grows carries.wellFormed carries.wellFormed')
      · exact carries.reflects_operand inside defined found (by simp [Expr.operands]) isLeft
      · exact carries.reflects_operand inside defined found (by simp [Expr.operands]) isRight

theorem copies (reaches : before.arena.Reaches id origin) (copies : before.Duplicates origin copy) :
    after.Duplicates origin copy where
  later := copies.later
  repeats := carries.repeats (carries.wellFormed.reaches_lt inside reaches)
    (fun _ onward => defined _ (carries.wellFormed.reaches_trans reaches onward)) copies.repeats

theorem sequels {first second : ExprId}
    (found : before.arena.slot? id = some (.expr (.cat first second)))
    (sequels : before.Sequels first second value) : after.Sequels first second value := by
  have isFirst : ∀ {f}, before.Reflects (before.arena.resolve first) f →
      after.Reflects (after.arena.resolve first) f :=
    carries.reflects_operand inside defined found (by simp [Expr.operands])
  have isSecond : ∀ {s}, before.Reflects (before.arena.resolve second) s →
      after.Reflects (after.arena.resolve second) s :=
    carries.reflects_operand inside defined found (by simp [Expr.operands])
  have stands : ∀ {x e}, before.arena.Stands x e → after.arena.Stands x e :=
    carries.grows.stands carries.wellFormed carries.wellFormed'
  cases sequels with
  | nil isNil => exact .nil (stands isNil)
  | cat reflects reflects' isCat => exact .cat (isFirst reflects) (isSecond reflects') (stands isCat)
  | first reflects reflects' isEmpty same =>
      exact .first (isFirst reflects) (isSecond reflects') (stands isEmpty) (carries.resolve_eq same)
  | second reflects reflects' isEmpty same =>
      exact .second (isFirst reflects) (isSecond reflects') (stands isEmpty) (carries.resolve_eq same)

theorem hardens (hardens : before.Hardens id value) : after.Hardens id value where
  letter found isLetter := by
    obtain ⟨e, stands, isLetter'⟩ := hardens.letter (carries.grows.expr_of_lt inside found) isLetter
    exact ⟨e, carries.grows.stands carries.wellFormed carries.wellFormed' stands, isLetter'⟩
  tight found isTight := by
    have isTight := hardens.tight (carries.grows.expr_of_lt inside found) isTight
    exact isTight.grows carries.grows carries.wellFormed carries.wellFormed'
  cat found := by
    have found := carries.grows.expr_of_lt inside found
    exact carries.sequels inside defined found (hardens.cat found)

end Defined

/-- What becomes of an expression lasts, unless it is the link of something that was being
simplified and is not any more. -/
theorem turns_or_finished (inside : id.number < before.arena.size)
    (orderly : before.arena.Orderly id) (turns : before.TurnsInto id value) :
    after.TurnsInto id value ∨ ∃ key link, before.arena.Reaches id key ∧ before.Running key link ∧
      ¬ after.Running key link ∧ before.arena.resolve value = before.arena.resolve link := by
  have persists := carries.grows.resolve_resolve carries.wellFormed carries.wellFormed'
  cases turns with
  | closed closed =>
      refine .inl (.closed ?_)
      rw [← persists, closed.resolve_grows carries.grows carries.wellFormed',
        carries.wellFormed.resolve_resolve]
      exact closed.grows carries.grows carries.wellFormed'
  | @linked key link reaches running same =>
      by_cases stillRunning : after.Running key link
      · exact .inl (.linked (carries.reaches inside orderly.defined reaches) stillRunning
          (carries.resolve_eq same))
      · exact .inr ⟨key, link, reaches, running, stillRunning, same⟩
  | @copied origin reaches isOrigin copies =>
      have copies' := carries.copies inside orderly.defined reaches copies
      obtain ⟨_, isCopy⟩ := copies'.repeats.exists_expr
      have isResolved : after.arena.resolve value = before.arena.resolve value := by
        rw [← persists, Arena.resolve_of_expr isCopy]
      refine .inl (.copied (carries.reaches inside orderly.defined reaches)
        (isOrigin.imp_right carries.reflects) ?_)
      rwa [isResolved]

/-- What becomes of an expression lasts, if that is so for what was still being simplified. -/
theorem turns (inside : id.number < before.arena.size) (orderly : before.arena.Orderly id)
    (finished : ∀ {key link value}, before.Running key link → ¬ after.Running key link →
      after.SimplifiesTo key value → before.arena.Orderly key → key.number < before.arena.size →
      after.TurnsInto key value)
    (turns : before.TurnsInto id value) : after.TurnsInto id value := by
  rcases carries.turns_or_finished inside orderly turns with
    turns | ⟨key, link, reaches, running, ended, same⟩
  · exact turns
  · obtain ⟨value', told, isValue⟩ := (carries.running running).resolve_left ended
    have turns := finished running ended told (orderly.of_reaches carries.wellFormed reaches)
      (carries.wellFormed.reaches_lt inside reaches)
    exact turns.of_reaches carries.wellFormed' (carries.reaches inside orderly.defined reaches)
      (reflects_of_told told) ((carries.resolve_eq same).trans isValue)

theorem becomes (inside : id.number < before.arena.size) (orderly : before.arena.Orderly id)
    (finished : ∀ {key link value}, before.Running key link → ¬ after.Running key link →
      after.SimplifiesTo key value → before.arena.Orderly key → key.number < before.arena.size →
      after.TurnsInto key value)
    (becomes : before.Becomes id value) : after.Becomes id value :=
  ⟨carries.turns inside orderly finished becomes.turns,
    carries.hardens inside orderly.defined becomes.hardens⟩

end Carries

end Grammar

end Residual
