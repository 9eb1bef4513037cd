import Residual.Proofs.Grammar.Coherence

/-!
# Making expressions keeps a grammar coherent

The constructors only advance a grammar.  Defining a link changes what was there, so all tables
are emptied with it; the arena still grows.
-/

set_option autoImplicit false

namespace Residual

open Memo

/-- The expressions that an operand refers to. -/
def Operand.ids : Operand → List ExprId
  | .expr id => [id]
  | .char _ | .text _ => []

namespace Grammar

variable {grammar before after : Grammar} {id link target : ExprId}

/-- The computation answers with an expression and only advances the grammar. -/
def Makes (grammar : Grammar) (computation : StateM Grammar ExprId) : Prop :=
  Gives computation grammar fun id after => grammar.Advances after ∧ id.number < after.arena.size

/-- The arena grew, links of it may have been bound, and the tables are right. -/
structure Grows (before after : Grammar) : Prop where
  coherent : after.Coherent
  config : after.config = before.config
  arena : before.arena.Grows after.arena
  distinguishes : ∀ limit ≤ before.arena.size, before.Distinguishes limit → after.Distinguishes limit
  normal : ∀ limit ≤ before.arena.size, before.Normal limit → after.Normal limit

theorem Coherent.grows_refl (coherent : grammar.Coherent) : grammar.Grows grammar :=
  ⟨coherent, rfl, .refl _, fun _ _ distinguishes => distinguishes, fun _ _ normal => normal⟩

theorem Grows.trans {first second third : Grammar} (earlier : first.Grows second)
    (later : second.Grows third) : first.Grows third where
  coherent := later.coherent
  config := later.config.trans earlier.config
  arena := earlier.arena.trans later.arena
  distinguishes limit limited distinguishes :=
    later.distinguishes limit (limited.trans earlier.arena.size_le)
      (earlier.distinguishes limit limited distinguishes)
  normal limit limited normal :=
    later.normal limit (limited.trans earlier.arena.size_le) (earlier.normal limit limited normal)

theorem Advances.grows (advances : before.Advances after) : before.Grows after :=
  ⟨advances.coherent, advances.config, advances.extending.grows, advances.distinguishes,
    advances.normal⟩

/-- Numbers of the arena are among those of a grammar it advances to. -/
theorem Advances.inside (advances : before.Advances after) {ids : List ExprId}
    (inside : ∀ id ∈ ids, id.number < before.arena.size) :
    ∀ id ∈ ids, id.number < after.arena.size :=
  fun id member => advances.lt_size (inside id member)

theorem Makes.bind {computation : StateM Grammar ExprId} {next : ExprId → StateM Grammar ExprId}
    (makes : grammar.Makes computation)
    (onward : ∀ {id after}, grammar.Advances after → id.number < after.arena.size →
      after.Makes (next id)) : grammar.Makes (computation >>= next) := by
  refine (gives_bind _ _ _).mpr (makes.mono fun id between ⟨advances, inside⟩ => ?_)
  exact (onward advances inside).mono fun _ _ ⟨advances', inside'⟩ =>
    ⟨advances.trans advances', inside'⟩

namespace Coherent

variable (coherent : grammar.Coherent)

include coherent

theorem makes_pure (inside : id.number < grammar.arena.size) : grammar.Makes (pure id) :=
  ⟨coherent.advances_refl, inside⟩

theorem makes_push {e : Expr ExprId} (operands : ∀ o ∈ e.operands, o.number < grammar.arena.size) :
    grammar.Makes (push e) :=
  ⟨coherent.advances_arena (coherent.wellFormed.push operands) (Arena.extends_push _ _)
    (.push grammar e) fun unfolded => unfolded.push fun o member => unfolded.exists_tree (operands o member),
    Arena.lt_size_of_slot? (Arena.slot?_push coherent.wellFormed e)⟩

theorem declare : Gives declare grammar fun _ after => grammar.Grows after := by
  have extending := Arena.extends_reserve grammar.arena
  obtain ⟨extended, distinguishes⟩ := coherent.extend_arena coherent.wellFormed.reserve extending
  exact ⟨extended, rfl, extending.grows, distinguishes, fun _ limited normal =>
    normal.extends limited coherent.wellFormed extending coherent.wellFormed.reserve rfl rfl rfl⟩

theorem makes_char (c : Char) : grammar.Makes (char c) :=
  coherent.makes_push (by simp [Expr.operands])

theorem makes_token (text : String) : grammar.Makes (token text) := by
  unfold token
  split
  · exact coherent.makes_char _
  · have interned := coherent.advances_arena (coherent.wellFormed.intern text)
      (Arena.extends_intern _ text) (.aside rfl rfl) fun unfolded => unfolded.intern text
    refine (gives_bind _ _ _).mpr ((gives_modify _ _).mpr ?_)
    exact (interned.coherent.makes_push (by simp [Expr.operands])).mono fun _ _ ⟨advances, inside⟩ =>
      ⟨interned.trans advances, inside⟩

theorem makes_operand (operand : Operand)
    (inside : ∀ id ∈ operand.ids, id.number < grammar.arena.size) :
    grammar.Makes (Grammar.operand operand) := by
  cases operand with
  | expr id => exact coherent.makes_pure (inside id (by simp [Operand.ids]))
  | char c => exact coherent.makes_char c
  | text text => exact coherent.makes_token text

theorem makes_unary {e : ExprId → Expr ExprId} (operands : ∀ o, (e o).operands = [o])
    (operand : Operand) (inside : ∀ id ∈ operand.ids, id.number < grammar.arena.size) :
    grammar.Makes (do Grammar.push (e (← Grammar.operand operand))) := by
  refine (coherent.makes_operand operand inside).bind fun advances made => ?_
  exact advances.coherent.makes_push (by simpa [operands] using made)

theorem makes_binary {e : ExprId → ExprId → Expr ExprId}
    (operands : ∀ o o', (e o o').operands = [o, o']) (left right : Operand)
    (inside : ∀ id ∈ left.ids ++ right.ids, id.number < grammar.arena.size) :
    grammar.Makes (do
      let left ← Grammar.operand left
      let right ← Grammar.operand right
      Grammar.push (e left right)) := by
  refine (coherent.makes_operand left fun id member =>
    inside id (List.mem_append_left _ member)).bind fun advances made => ?_
  refine (advances.coherent.makes_operand right (advances.inside fun id member =>
    inside id (List.mem_append_right _ member))).bind fun advances' made' => ?_
  exact advances'.coherent.makes_push (by simpa [operands] using ⟨advances'.lt_size made, made'⟩)

theorem makes_fold {combine : ExprId → Operand → StateM Grammar ExprId}
    (makes : ∀ {grammar : Grammar} {left : ExprId} {right : Operand}, grammar.Coherent →
      left.number < grammar.arena.size → (∀ id ∈ right.ids, id.number < grammar.arena.size) →
      grammar.Makes (combine left right))
    (rest : List Operand) (inside : ∀ id ∈ rest.flatMap Operand.ids, id.number < grammar.arena.size)
    (first : id.number < grammar.arena.size) : grammar.Makes (rest.foldlM combine id) := by
  induction rest generalizing grammar id with
  | nil => exact coherent.makes_pure first
  | cons operand rest inductionHypothesis =>
      rw [List.foldlM_cons]
      refine (makes coherent first fun id member => inside id (by simp [member])).bind
        fun advances made => ?_
      refine inductionHypothesis advances.coherent (advances.inside fun id member => ?_) made
      exact inside id (by simpa using .inr (by simpa using member))

/-- All operands of a sequence are combined from the left. -/
theorem makes_sequence {combine : ExprId → Operand → StateM Grammar ExprId}
    (makes : ∀ {grammar : Grammar} {left : ExprId} {right : Operand}, grammar.Coherent →
      left.number < grammar.arena.size → (∀ id ∈ right.ids, id.number < grammar.arena.size) →
      grammar.Makes (combine left right))
    (first : Operand) (rest : List Operand)
    (inside : ∀ id ∈ (first :: rest).flatMap Operand.ids, id.number < grammar.arena.size) :
    grammar.Makes (do rest.foldlM combine (← Grammar.operand first)) := by
  refine (coherent.makes_operand first fun id member => inside id ?_).bind fun advances made => ?_
  · simp [member]
  · refine advances.coherent.makes_fold makes rest (advances.inside fun id member => ?_) made
    exact inside id (by simpa using .inr (by simpa using member))

theorem makes_choice (operands : List Operand)
    (inside : ∀ id ∈ operands.flatMap Operand.ids, id.number < grammar.arena.size) :
    grammar.Makes (choice operands) := by
  cases operands with
  | nil => exact coherent.makes_pure coherent.wellFormed.nil_lt_size
  | cons first rest =>
      refine coherent.makes_sequence (fun coherent left right => ?_) first rest inside
      exact coherent.makes_binary (fun _ _ => rfl) _ _ (by simpa [Operand.ids] using ⟨left, right⟩)

theorem makes_seq (operands : List Operand)
    (inside : ∀ id ∈ operands.flatMap Operand.ids, id.number < grammar.arena.size) :
    grammar.Makes (Grammar.seq operands) := by
  cases operands with
  | nil => exact coherent.makes_pure coherent.wellFormed.empty_lt_size
  | cons first rest =>
      refine coherent.makes_sequence (fun coherent left right => ?_) first rest inside
      exact coherent.makes_binary (fun _ _ => rfl) _ _ (by simpa [Operand.ids] using ⟨left, right⟩)

/-! ## Defining links -/

theorem clearTables : grammar.Grows grammar.clearTables :=
  ⟨.of_empty coherent.wellFormed coherent.fault, rfl, .refl _, fun limit _ _ => .empty _ limit _,
    fun _ _ _ => .of_empty rfl ⟨_, rfl⟩⟩

/-- Binding a link is safe once the tables are emptied. -/
theorem grows_bind (unbound : grammar.arena.slot? link = some (.link none))
    (inside : target.number < grammar.arena.size) :
    grammar.Grows (bindLink link target grammar).2.clearTables := by
  have wellFormed : (bindLink link target grammar).2.arena.WellFormed :=
    coherent.wellFormed.bind target unbound inside
  have fault : (bindLink link target grammar).2.fault = none := coherent.fault
  exact ⟨of_empty wellFormed fault, rfl, Arena.grows_bind target unbound,
    fun limit _ _ => .empty _ limit _, fun _ _ _ => .of_empty rfl ⟨_, rfl⟩⟩

omit coherent in
theorem bindLink_of_not_unbound (bound : grammar.arena.slot? link ≠ some (.link none)) :
    bindLink link target grammar = (false, grammar) := by
  change ((grammar.arena.bind link target).1,
    { grammar with arena := (grammar.arena.bind link target).2 }) = _
  rw [Arena.bind_of_not_unbound bound]

/-- A reference that is defined takes all results with it.  Otherwise only the operand was made. -/
theorem define_cases (operand : Operand)
    (inside : ∀ id ∈ operand.ids, id.number < grammar.arena.size) :
    Gives (Grammar.define link operand) grammar fun _ after => grammar.Advances after ∨
      grammar.Grows after ∧ after.tables = .empty after.config.fixpoint := by
  refine (gives_bind _ _ _).mpr ((coherent.makes_operand operand inside).mono ?_)
  rintro target made ⟨advances, inside⟩
  refine (gives_bind _ _ _).mpr ((gives_get _).mpr ?_)
  split
  · exact (gives_pure _ _).mpr (.inl advances)
  · refine (gives_bind _ _ _).mpr ?_
    by_cases unbound : made.arena.slot? link = some (.link none)
    · have wasUnbound : (bindLink link target made).1 = true := (Arena.bind_of_unbound unbound).1
      unfold Gives
      rw [wasUnbound]
      exact .inr ⟨advances.grows.trans (advances.coherent.grows_bind unbound inside), rfl⟩
    · unfold Gives
      rw [bindLink_of_not_unbound unbound]
      exact .inl advances

theorem define (operand : Operand) (inside : ∀ id ∈ operand.ids, id.number < grammar.arena.size) :
    Gives (define link operand) grammar fun _ after => grammar.Grows after :=
  (coherent.define_cases operand inside).mono fun _ _ defined =>
    defined.elim Advances.grows And.left

theorem tie (inside : target.number < grammar.arena.size) :
    Gives (tie link target) grammar fun _ after => grammar.Grows after := by
  by_cases unbound : grammar.arena.slot? link = some (.link none)
  · exact coherent.grows_bind unbound inside
  · refine (gives_bind _ _ _).mpr ?_
    unfold Gives
    rw [bindLink_of_not_unbound unbound]
    exact coherent.clearTables

end Coherent

end Grammar

end Residual
