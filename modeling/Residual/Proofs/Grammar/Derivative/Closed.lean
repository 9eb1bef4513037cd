import Residual.Proofs.Grammar.Derivative.Entries

/-!
# Derivatives of closed expressions

While a derivation runs, links stand for the derivatives that it is about to make.  No key is told
its own link unless its evaluation asks for itself, and a closed expression never does: whatever it
asks for is lighter.  So the derivative of a closed expression is made of closed expressions, and
nothing is bound below it that is not bound below the expression itself.
-/

set_option autoImplicit false

namespace Residual

open Memo Relation

namespace Arena

variable {arena before after base : Arena} {x y z o id value : ExprId} {e : Expr ExprId}
  {nullable : ExprId → Bool → Prop} {told : ExprId → ExprId → Prop} {c : Char}

/-- A closed expression below which nothing was bound that is not bound below `x`. -/
structure Stems (arena : Arena) (x y : ExprId) : Prop where
  closed : arena.Closed y
  clean : ∀ {limit}, arena.Patched limit y → arena.Patched limit x

namespace Stems

theorem refl (closed : arena.Closed x) : arena.Stems x x :=
  ⟨closed, fun patched => patched⟩

theorem trans (first : arena.Stems x y) (second : arena.Stems y z) : arena.Stems x z :=
  ⟨second.closed, fun patched => first.clean (second.clean patched)⟩

theorem operand (closed : arena.Closed x) (member : o ∈ (arena.get x).operands) :
    arena.Stems x o where
  closed := closed.of_mem member
  clean patched :=
    Patched.of_resolve closed.wellFormed (patched.of_points (.inr ⟨_, closed.stands, member⟩))

theorem resolve (closed : arena.Closed x) : arena.Stems x (arena.resolve x) :=
  ⟨closed.resolve, fun patched => patched.of_resolve closed.wellFormed⟩

/-- An operator above expressions that were made of `x`. -/
theorem of_expr (wellFormed : arena.WellFormed) (found : arena.slot? y = some (.expr e))
    (operands : ∀ o ∈ e.operands, arena.Stems x o) : arena.Stems x y where
  closed := wellFormed.closed_of_expr found fun o member => (operands o member).closed
  clean patched := by
    obtain ⟨o, member, patched⟩ := patched.exists_operand found
    exact (operands o member).clean patched

theorem of_leaf (wellFormed : arena.WellFormed) (found : arena.slot? y = some (.expr e))
    (isLeaf : e.operands = []) : arena.Stems x y :=
  of_expr wellFormed found (by simp [isLeaf])

theorem of_pair {first second : ExprId} (wellFormed : arena.WellFormed)
    (found : arena.slot? y = some (.expr e)) (operands : e.operands = [first, second])
    (isFirst : arena.Stems x first) (isSecond : arena.Stems x second) : arena.Stems x y := by
  refine of_expr wellFormed found fun o member => ?_
  rw [operands] at member
  rcases List.mem_pair.mp member with rfl | rfl
  · exact isFirst
  · exact isSecond

theorem of_single (wellFormed : arena.WellFormed) (found : arena.slot? y = some (.expr e))
    (operands : e.operands = [o]) (isOperand : arena.Stems x o) : arena.Stems x y := by
  refine of_expr wellFormed found fun o' member => ?_
  rw [operands] at member
  rwa [List.mem_singleton.mp member]

theorem empty (wellFormed : arena.WellFormed) : arena.Stems x .empty :=
  of_leaf wellFormed wellFormed.empty rfl

theorem nil (wellFormed : arena.WellFormed) : arena.Stems x .nil :=
  of_leaf wellFormed wellFormed.nil rfl

/-- Nothing is bound below a closed expression later. -/
theorem grows (stems : before.Stems x y) (growing : before.Grows after)
    (wellFormed' : after.WellFormed) : after.Stems x y where
  closed := stems.closed.grows growing wellFormed'
  clean patched := (stems.clean (stems.closed.patched_grows growing patched)).grows growing

end Stems

/-- The derivative of a closed expression is made of it, where what is told about closed expressions
is made of them. -/
theorem Derives.stems (derives : base.Derives arena nullable told c id (arena.get id) value)
    (closed : arena.Closed id)
    (answers : ∀ o d, told o d → arena.Closed o → arena.Stems o d) : arena.Stems id value := by
  have wellFormed := closed.wellFormed
  have operand : ∀ {o}, o ∈ (arena.get id).operands → arena.Stems id o := .operand closed
  have told_of_stems : ∀ {o d}, arena.Stems id o → told o d → arena.Stems id d :=
    fun stems isTold => stems.trans (answers _ _ isTold stems.closed)
  have answer : ∀ {o d}, o ∈ (arena.get id).operands → told (arena.resolve o) d →
      arena.Stems id d := fun member isTold =>
    told_of_stems ((operand member).trans (.resolve (operand member).closed)) isTold
  have atom : ∀ {o e d}, arena.slot? o = some (.expr e) → e.operands = [] → told o d →
      arena.Stems id d := fun found isLeaf isTold =>
    told_of_stems (.of_leaf wellFormed found isLeaf) isTold
  generalize arena.get id = e at derives operand answer
  cases derives with
  | any | never _ => exact .empty wellFormed
  | empty | nil | unbounded _ => exact .nil wellFormed
  | char c' =>
      split
      · exact .empty wellFormed
      · exact .nil wellFormed
  | inRange _ isChar isTold => exact atom isChar rfl isTold
  | outOfRange _ isTold => exact atom wellFormed.nil rfl isTold
  | noText _ isTold => exact atom wellFormed.empty rfl isTold
  | lastChar _ isChar isTold => exact atom isChar rfl isTold
  | @text _ _ rest _ _ _ _ _ _ isChar isTold isTail found =>
      refine .of_pair wellFormed found rfl (atom isChar rfl isTold) (.of_leaf wellFormed isTail ?_)
      rcases Expr.literal_cases rest with ⟨_, isLiteral⟩ | ⟨_, isLiteral⟩ <;>
        rw [isLiteral, Expr.operands]
  | alt isLeft isRight found =>
      exact .of_pair wellFormed found rfl (answer (by simp [Expr.operands]) isLeft)
        (answer (by simp [Expr.operands]) isRight)
  | cat isHead _ found =>
      exact .of_pair wellFormed found rfl (answer (by simp [Expr.operands]) isHead)
        (operand (by simp [Expr.operands]))
  | catNullable isHead _ isCat isTail found =>
      have cat := Stems.of_pair wellFormed isCat rfl (answer (by simp [Expr.operands]) isHead)
        (operand (by simp [Expr.operands]))
      exact .of_pair wellFormed found rfl cat (answer (by simp [Expr.operands]) isTail)
  | not isTold found =>
      exact .of_single wellFormed found rfl (answer (by simp [Expr.operands]) isTold)
  | opt _ isUnion isTold =>
      have union := Stems.of_pair wellFormed isUnion rfl (operand (by simp [Expr.operands]))
        (.empty wellFormed)
      exact told_of_stems union isTold
  | plus isHead isStar found =>
      have star := Stems.of_single wellFormed isStar rfl (operand (by simp [Expr.operands]))
      exact .of_pair wellFormed found rfl (answer (by simp [Expr.operands]) isHead) star
  | star isHead found =>
      exact .of_pair wellFormed found rfl (answer (by simp [Expr.operands]) isHead) (.refl closed)
  | once isTold => exact answer (by simp [Expr.operands]) isTold
  | repeated isHead isRest found =>
      have rest := Stems.of_single wellFormed isRest rfl (operand (by simp [Expr.operands]))
      exact .of_pair wellFormed found rfl (answer (by simp [Expr.operands]) isHead) rest

end Arena

namespace Grammar

variable {before after grammar : Grammar} {id : ExprId} {c : Char} {faultless : Prop}
  {root : Derivation} {rootValue : ExprId} {results : List (Result Derivation)}

/-- Known derivatives of closed expressions are made of them. -/
def DerivativesStem (grammar : Grammar) : Prop :=
  ∀ (key : Derivation) (value : ExprId), grammar.tables.derivatives.settled[key]? = some value →
    grammar.arena.Closed key.lang → grammar.arena.Stems key.lang value

theorem DerivativesStem.of_empty {strategy : Strategy}
    (isEmpty : grammar.tables.derivatives = .empty strategy) : grammar.DerivativesStem := by
  intro key value settled
  simp [isEmpty] at settled

/-- Slots that are added do no harm to what was known. -/
theorem DerivativesStem.later (stem : before.DerivativesStem) (coherent : before.Coherent)
    (wellFormed' : after.arena.WellFormed) (extending : before.arena.Extends after.arena)
    {key : Derivation} {value : ExprId}
    (settled : before.tables.derivatives.settled[key]? = some value)
    (closed : after.arena.Closed key.lang) : after.arena.Stems key.lang value := by
  obtain ⟨inside, _⟩ := coherent.derivatives.settled_lt settled
  have closed := closed.of_extends extending coherent.wellFormed inside
  exact (stem key value settled closed).grows extending.grows wellFormed'

theorem DerivativesStem.extends (stem : before.DerivativesStem) (coherent : before.Coherent)
    (wellFormed' : after.arena.WellFormed) (extending : before.arena.Extends after.arena)
    (same : after.tables.derivatives = before.tables.derivatives) : after.DerivativesStem := by
  intro key value settled closed
  rw [same] at settled
  exact stem.later coherent wellFormed' extending settled closed

/-- The evaluation of a closed expression does not ask for itself. -/
theorem not_closed_of_circular {key : Derivation}
    (circular : (derivation before c faultless).Circular after.arena key)
    (fromBase : before.arena.Extends after.arena) : ¬ after.arena.Closed key.lang :=
  Arena.Outweighs.not_closed (TransGen.lift Derivation.lang (fun _ _ outweighs => outweighs) _ _ circular)
    fromBase

/-- The induction is over the results in the order in which they were made: none of a closed
expression was told a link. -/
theorem DerivativesStem.of_finished (stem : before.DerivativesStem) (coherent : before.Coherent)
    (finished : (derivation before c faultless).Finished root rootValue results after) :
    after.DerivativesStem := by
  have wellFormed := coherent.wellFormed
  have extending : before.arena.Extends after.arena := finished.fromBase
  have old : ∀ {key : Derivation} {value}, before.tables.derivatives.settled[key]? = some value →
      after.arena.Closed key.lang → after.arena.Stems key.lang value :=
    stem.later coherent finished.wellFormed extending
  have made : ∀ {part}, History ((derivation before c faultless).Rule after) before.arena after.arena
      (fun key value => before.tables.derivatives.settled[key]? = some value)
      (fun key link => (derivation before c faultless).Circular after.arena key ∧
        ∃ result ∈ results, result.key = key ∧ result.link = link) part →
      ∀ result ∈ part, after.arena.Closed result.key.lang →
        after.arena.Stems result.key.lang result.value := by
    intro part history
    induction history with
    | nil => simp
    | @cons newest earlier arena _ _ fromBase growing _ rule inductionHypothesis =>
        intro result member closed
        rcases List.mem_cons.mp member with rfl | member
        · obtain ⟨_, derivable, _, derives⟩ := rule
          rw [← derivable.get_eq wellFormed fromBase extending growing] at derives
          have sameResolve : ∀ o ∈ (after.arena.get result.key.lang).operands,
              after.arena.resolve o = arena.resolve o := by
            intro o member
            rw [derivable.get_eq wellFormed fromBase extending growing] at member
            have inside := derivable.operand_lt wellFormed fromBase member
            exact (extending.resolve wellFormed inside).trans
              (fromBase.resolve wellFormed inside).symm
          have derives := derives.grows growing sameResolve (fun _ _ _ isNullable => isNullable)
            fun _ _ told => told
          refine derives.stems closed ?_
          rintro o d (settled | ⟨circular, _⟩ | ⟨result', member, sameKey, rfl⟩) closed
          · exact old settled closed
          · exact absurd closed (not_closed_of_circular circular extending)
          · have stems := inductionHypothesis result' member
            rw [sameKey] at stems
            exact stems closed
        · exact inductionHypothesis result member closed
  intro key value settled closed
  rcases (finished.settled_iff key value).mp settled with settled | ⟨result, member, rfl, rfl⟩
  · exact old settled closed
  · exact made finished.history result member closed

theorem Coherent.deriveDefined_stem (coherent : grammar.Coherent) (stem : grammar.DerivativesStem)
    (inside : id.number < grammar.arena.size) :
    Gives (Grammar.deriveDefined id c) grammar fun _ after => after.DerivativesStem := by
  refine (coherent.deriveDefined_cases inside).mono ?_
  rintro result after ⟨value, evaluated, results, finished, isResult⟩
  rcases isResult with ⟨_, _, rfl⟩ | ⟨_, _, rfl⟩
  · exact stem.of_finished coherent finished
  · exact .of_empty rfl

theorem Transition.derivativesStem (transition : before.Transition after)
    (coherent : before.Coherent) (stem : before.DerivativesStem) : after.DerivativesStem := by
  have wellFormed' := (transition.grows coherent).coherent.wellFormed
  cases transition with
  | widen widens =>
      exact stem.extends coherent wellFormed' widens.extending widens.untouched.derivatives
  | render inside =>
      obtain ⟨_, tables⟩ := coherent.render_tables inside
      exact stem.extends coherent wellFormed' (coherent.render inside).extending (by rw [tables])
  | delta inside =>
      have reduces := coherent.reduces inside
      exact stem.extends coherent wellFormed' reduces.advances.extending reduces.derivatives
  | derive c inside => exact coherent.deriveDefined_stem stem inside
  | renew _ isEmpty => exact .of_empty (congrArg Tables.derivatives isEmpty)

theorem Reachable.derivativesStem (reachable : grammar.Reachable) : grammar.DerivativesStem :=
  reachable.of_transitions (fun coherent transition => transition.derivativesStem coherent)
    fun _ => .of_empty rfl

end Grammar

end Residual
