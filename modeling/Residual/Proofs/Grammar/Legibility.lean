import Residual.Proofs.Expr.Rendering
import Residual.Proofs.Grammar.Transitions

/-!
# Renderings tell expressions apart

In every grammar that calls can lead to, an expression without cycles and undefined references is
shown as the text of its tree, whatever was rendered before.  The tree can be read from the text,
so that two such expressions have one text exactly if they have one tree.
-/

set_option autoImplicit false

namespace Residual

open Memo

variable {id : ExprId}

namespace Arena

variable {arena : Arena} {placeholders : Set ExprId} {tree : Tree}

/-- Where every unbound link is left out, trees have no undefined references. -/
theorem Unfolds.isDefined (unfolds : arena.Unfolds Set.univ id tree) : tree.IsDefined := by
  induction unfolds with
  | undefined _ isReference => exact absurd trivial isReference
  | link _ _ inductionHypothesis => exact inductionHypothesis
  | node trees _ _ inductionHypothesis =>
      refine .node fun o member => ?_
      rw [Expr.operands_map] at member
      obtain ⟨operand, isOperand, rfl⟩ := List.mem_map.mp member
      exact inductionHypothesis operand isOperand

/-- The text is that of the expression's tree, if the expression is closed. -/
structure ShowsClosed (arena : Arena) (id : ExprId) (text : String) : Prop where
  inside : id.number < arena.size
  eq_render : arena.Closed id → text = (arena.tree id).render

/-- The rendering of a closed expression from those of its operands. -/
theorem eq_render_of_answers (wellFormed : arena.WellFormed) {text : String}
    (answers : (arena.renderingEquation id).Answers arena.ShowsClosed text)
    (closed : arena.Closed id) : text = (arena.tree id).render := by
  refine renderingEquation_recurses wellFormed closed.unfolds
    (answers.mono_of_asks (renderingEquation_asks arena id) fun other text child shows => ?_)
  obtain ⟨o, member, rfl⟩ := mem_operands_iff.mp child
  have isClosed := (closed.of_mem member).resolve
  exact ⟨_, isClosed.unfolds, shows.eq_render isClosed⟩

/-- Renderings as a system of equations, which are known to be right for closed expressions. -/
def renderingSystem (arena : Arena) (wellFormed : arena.WellFormed) :
    EquationSystem ExprId String where
  equation := arena.renderingEquation
  bottom _ := ellipsis
  keys := arena.ids
  Asks := arena.Child
  Bound := arena.ShowsClosed
  asks id _ := (arena.renderingEquation_asks id).mono fun _ child =>
    ⟨child, mem_ids.mpr (wellFormed.child_lt child)⟩
  bottom_bound _ inKeys cycle := ⟨mem_ids.mp inKeys, fun closed =>
    absurd cycle (not_transGen_of_acc (wellFormed.grounded_resolve.mp closed.grounded))⟩
  equation_bound _ inKeys _ answers :=
    ⟨mem_ids.mp inKeys, eq_render_of_answers wellFormed answers⟩

/-- Expressions that are closed with new slots were closed without them. -/
theorem ShowsClosed.extends {later : Arena} {text : String} (shows : arena.ShowsClosed id text)
    (extending : arena.Extends later) (wellFormed : arena.WellFormed)
    (wellFormed' : later.WellFormed) : later.ShowsClosed id text where
  inside := extending.grows.lt_size shows.inside
  eq_render closed := by
    have wasClosed := closed.of_extends extending wellFormed shows.inside
    rw [wasClosed.tree_grows extending.grows wellFormed']
    exact shows.eq_render wasClosed

end Arena

namespace Grammar

variable {before after grammar later : Grammar} {x y : ExprId}

/-- The renderings that are known are right for closed expressions. -/
def Legible (grammar : Grammar) : Prop :=
  grammar.tables.renderings.Records grammar.arena.ShowsClosed

theorem Legible.of_empty {strategy : Strategy}
    (isEmpty : grammar.tables.renderings = .empty strategy) : grammar.Legible := by
  unfold Legible
  rw [isEmpty]
  exact .empty strategy _

theorem Legible.extends (legible : before.Legible) (coherent : before.Coherent)
    (coherent' : after.Coherent) (extending : before.arena.Extends after.arena)
    (same : after.tables.renderings = before.tables.renderings) : after.Legible := by
  unfold Legible
  rw [same]
  exact legible.mono fun _ _ shows =>
    shows.extends extending coherent.wellFormed coherent'.wellFormed

/-- A rendering is right for a closed expression, and what is known then is right too. -/
theorem Legible.render (legible : grammar.Legible) (coherent : grammar.Coherent)
    (inside : id.number < grammar.arena.size) :
    Gives (render id) grammar fun text after => after.Legible ∧
      (grammar.arena.Closed id → text = (grammar.arena.tree id).render) := by
  have wellFormed := coherent.wellFormed
  refine Eval.Yields.settle ?_ ellipsis
  unfold computeRendering
  simp only [Eval.yields_bind, Eval.yields_get]
  refine (yields_analysis_records renderings_isField (grammar.arena.renderingSystem wellFormed)
    (fun _ _ => rfl) rfl legible (Arena.mem_ids.mpr (wellFormed.resolve_lt inside))
    (Nat.lt_succ_of_le grammar.arena.card_ids_le)).mono ?_
  rintro text after ⟨aside, records, shows⟩
  refine ⟨?_, fun closed => ?_⟩
  · unfold Legible
    rw [aside.arena]
    exact records
  · rw [← closed.tree_resolve]
    exact shows.eq_render closed.resolve

theorem Transition.legible (transition : before.Transition after) (coherent : before.Coherent)
    (legible : before.Legible) : after.Legible := by
  have coherent' := (transition.grows coherent).coherent
  cases transition with
  | widen widens =>
      exact legible.extends coherent coherent' widens.extending widens.untouched.renderings
  | render inside => exact (legible.render coherent inside).1
  | delta inside =>
      have reduces := coherent.reduces inside
      exact legible.extends coherent coherent' reduces.advances.extending reduces.renderings
  | derive c inside =>
      obtain ⟨_, _, tables⟩ := coherent.deriveDefined_tables (c := c) inside
      exact legible.extends coherent coherent' (coherent.deriveDefined inside).advances.extending
        (by rw [tables])
  | renew _ isEmpty => exact .of_empty (congrArg Tables.renderings isEmpty)

theorem Reachable.legible (reachable : grammar.Reachable) : grammar.Legible :=
  reachable.of_transitions (fun coherent transition => transition.legible coherent)
    fun _ => .of_empty rfl

/-! ## Texts -/

/-- The text of an expression without cycles and undefined references is that of its tree, whatever
was asked before. -/
theorem Reachable.render_eq (reachable : grammar.Reachable) (closed : grammar.arena.Closed id) :
    (Grammar.render id grammar).1 = (grammar.arena.tree id).render :=
  (reachable.legible.render reachable.coherent closed.lt_size).2 closed

/-- Two expressions without cycles and undefined references have one text exactly if they have one
tree, whatever calls come between. -/
theorem render_eq_render_iff (reachable : grammar.Reachable) (evolves : grammar.Evolves later)
    (inside : x.number < grammar.arena.size) (inside' : y.number < grammar.arena.size)
    (acyclic : grammar.arena.Acyclic x) (acyclic' : grammar.arena.Acyclic y)
    (defined : grammar.arena.Defined x) (defined' : grammar.arena.Defined y) :
    (Grammar.render x grammar).1 = (Grammar.render y later).1 ↔
      ∃ tree, grammar.arena.Unfolds ∅ x tree ∧ grammar.arena.Unfolds ∅ y tree := by
  have coherent := reachable.coherent
  have closed := coherent.wellFormed.closed_of_acyclic inside acyclic defined
  have closed' := coherent.wellFormed.closed_of_acyclic inside' acyclic' defined'
  have growing := coherent.evolves evolves
  have wellFormed := growing.coherent.wellFormed
  rw [reachable.render_eq closed, (reachable.evolve evolves).render_eq
    (closed'.grows growing.arena wellFormed), closed'.tree_grows growing.arena wellFormed]
  constructor
  · intro same
    have sameTree := closed.unfolds.isDefined.render_inj closed'.unfolds.isDefined same
    exact ⟨_, closed.unfolds.of_univ, sameTree ▸ closed'.unfolds.of_univ⟩
  · rintro ⟨tree, unfolds, unfolds'⟩
    rw [closed.tree_eq (coherent.wellFormed.unfolds_of_defined unfolds defined),
      closed'.tree_eq (coherent.wellFormed.unfolds_of_defined unfolds' defined')]

/-- The expression `'a'*`, written down twice.  The two have the numbers four and six. -/
def repetitionTwice : Grammar :=
  let write := star (.char 'a')
  (write (write (ofConfig {})).2).2

theorem repetitionTwice_reachable : repetitionTwice.Reachable :=
  ⟨{}, .call (.star (.char 'a')) (.call (.star (.char 'a')) .refl nofun) nofun⟩

theorem render_eq_render_iff_repetitionTwice :
    (Grammar.render ⟨4⟩ repetitionTwice).1 =
      (Grammar.render ⟨6⟩ (Grammar.render ⟨3⟩ repetitionTwice).2).1 := by
  have acyclic : ∀ id, repetitionTwice.arena.Acyclic id := fun _ =>
    Arena.acyclic_of_forall (by decide)
  have defined : ∀ id, repetitionTwice.arena.Defined id := fun _ =>
    Arena.defined_of_forall (by decide)
  refine (render_eq_render_iff repetitionTwice_reachable (.call (.render ⟨3⟩) .refl (by decide))
    (by decide) (by decide) (acyclic _) (acyclic _) (defined _) (defined _)).mpr ?_
  have star : ∀ {id char : ExprId}, repetitionTwice.arena.slot? id = some (.expr (.star char)) →
      repetitionTwice.arena.slot? char = some (.expr (.char 'a')) →
      repetitionTwice.arena.Unfolds ∅ id (.node (.star (.node (.char 'a')))) := by
    intro id char found found'
    refine .node (fun _ => .node (.char 'a')) found fun o member => ?_
    obtain rfl := List.mem_singleton.mp member
    exact .node (fun _ => .node (.char 'a')) found' nofun
  exact ⟨_, star rfl rfl, star rfl rfl⟩

end Grammar

end Residual
