import Residual.Proofs.Grammar.Reachable

/-!
# The tables are invisible without recursion

As long as no definition makes an expression part of itself, every expression has a tree, and all
questions about it are answered as plain recursion answers them on the tree that it has now.
Whatever was asked before, and whatever was defined since then, no table shows.
-/

set_option autoImplicit false

namespace Residual.Grammar

open Memo

/-- The grammar comes from a new one by calls, and no definition among them made an expression
reachable from itself. -/
inductive NonRecursive : Grammar → Prop where
  | new (config : Config) : NonRecursive (ofConfig config)
  | call {grammar : Grammar} (call : Call) : NonRecursive grammar →
      (∀ id ∈ call.ids, id.number < grammar.arena.size) →
      (call.defines = true → ∀ id, ¬ Relation.TransGen (call.run grammar).2.arena.Child id id) →
      NonRecursive (call.run grammar).2

variable {grammar : Grammar}

/-- Empty tables are right for all trees. -/
theorem Unfolded.of_empty (wellFormed : grammar.arena.WellFormed)
    (unfoldable : ∀ {id : ExprId}, id.number < grammar.arena.size → grammar.arena.Unfoldable ∅ id)
    (isEmpty : grammar.tables = .empty grammar.config.fixpoint) : grammar.Unfolded ∅ where
  wellFormed := wellFormed
  unbound := nofun
  unfoldable inside _ := unfoldable inside
  nullability := by
    rw [isEmpty]
    exact .empty _ _
  heights := by
    rw [isEmpty]
    exact .empty _ _
  renderings := by
    rw [isEmpty]
    exact .empty _ _
  equalities := by
    rw [isEmpty]
    exact .empty _ _

theorem Unfolded.of_acyclic (wellFormed : grammar.arena.WellFormed)
    (acyclic : ∀ id, ¬ Relation.TransGen grammar.arena.Child id id)
    (isEmpty : grammar.tables = .empty grammar.config.fixpoint) : grammar.Unfolded ∅ := by
  refine .of_empty wellFormed (fun inside => ?_) isEmpty
  exact .of_grounded wellFormed inside (wellFormed.grounded_of_acyclic fun id _ => acyclic id)

theorem unfolded_ofConfig (config : Config) : (ofConfig config).Unfolded ∅ := by
  refine .of_acyclic Arena.wellFormed_initial ?_ rfl
  exact Arena.wellFormed_initial.not_transGen_of_decreasing (by decide)

/-- A call keeps all trees, unless it defines a reference so that an expression contains itself. -/
theorem Unfolded.run (unfolded : grammar.Unfolded ∅) (coherent : grammar.Coherent) (call : Call)
    (inside : ∀ id ∈ call.ids, id.number < grammar.arena.size)
    (acyclic : call.defines = true →
      ∀ id, ¬ Relation.TransGen (call.run grammar).2.arena.Child id id) :
    (call.run grammar).2.Unfolded ∅ := by
  have wellFormed := (coherent.grows_run call inside).coherent.wellFormed
  cases call with
  | define link lang =>
      have defined : Gives (define link lang) grammar fun _ after => grammar.Advances after ∨
          grammar.Grows after ∧ after.tables = .empty after.config.fixpoint :=
        coherent.define_cases lang fun id member => inside id (by simp [Call.ids, member])
      rcases defined with advances | ⟨_, isEmpty⟩
      · exact advances.unfolded unfolded
      · exact .of_acyclic wellFormed (acyclic rfl) isEmpty
  | tie link target => exact .of_acyclic wellFormed (acyclic rfl) rfl
  | clearTables => exact .of_empty wellFormed unfolded.exists_tree rfl
  | declare => exact unfolded.reserve
  | _ => exact (coherent.advances_run _ inside rfl (by simp) (by simp)).unfolded unfolded

/-- The invariant of grammars without recursion: what the tables say is right for the trees. -/
theorem NonRecursive.invariant (nonRecursive : grammar.NonRecursive) :
    grammar.Coherent ∧ grammar.Unfolded ∅ := by
  induction nonRecursive with
  | new config => exact ⟨.ofConfig config, unfolded_ofConfig config⟩
  | call call _ inside acyclic inductionHypothesis =>
      obtain ⟨coherent, unfolded⟩ := inductionHypothesis
      exact ⟨(coherent.grows_run call inside).coherent,
        unfolded.run coherent call inside acyclic⟩

/-- Without recursion every expression has a tree.  Whether it contains the empty string, how high
it is, how it is written, and which expressions are equal to it is answered as plain recursion
answers it on the trees. -/
theorem answers_eq_recursion (nonRecursive : grammar.NonRecursive) :
    (∀ {id : ExprId}, id.number < grammar.arena.size →
      ∃ tree, grammar.arena.Unfolds ∅ id tree) ∧
    (∀ {id : ExprId} {tree : Tree}, grammar.arena.Unfolds ∅ id tree →
      ((nullable id grammar).1 = true ↔ tree.Nullable) ∧ (height id grammar).1 = tree.height ∧
        (render id grammar).1 = tree.render) ∧
    ∀ {x y : ExprId} {tree tree' : Tree}, grammar.arena.Unfolds ∅ x tree →
      grammar.arena.Unfolds ∅ y tree' → ((equal x y grammar).1 = true ↔ tree = tree') := by
  have unfolded := nonRecursive.invariant.2
  refine ⟨unfolded.exists_tree, fun unfolds => ⟨?_, ?_, ?_⟩, fun unfolds unfolds' => ?_⟩
  · exact ((unfolded.yields_nullable unfolds).settle false).1
  · exact ((unfolded.yields_height unfolds).settle 0).1
  · exact ((unfolded.yields_render unfolds).settle ellipsis).1
  · exact ((unfolded.yields_equal unfolds unfolds').settle true).1

/-- The grammar of `Xa`, where `X` is the expression with the number four and is not defined yet. -/
def earlyReference : Grammar :=
  let calls : List Call := [.operand (.char 'a'), .declare, .cat (.expr ⟨4⟩) (.expr ⟨3⟩)]
  calls.foldl (fun grammar call => (call.run grammar).2) (ofConfig {})

/-- The same grammar after `X` was asked for its empty string and then defined as `ε`. -/
def lateDefinition : Grammar :=
  ((Call.define ⟨4⟩ (.expr .empty)).run ((Call.nullable ⟨4⟩).run earlyReference).2).2

theorem earlyReference_nonRecursive : earlyReference.NonRecursive :=
  .call (.cat (.expr ⟨4⟩) (.expr ⟨3⟩)) (.call .declare (.call (.operand (.char 'a')) (.new {})
    nofun nofun) nofun nofun) (by decide) nofun

theorem arena_nullable_earlyReference :
    ((Call.nullable ⟨4⟩).run earlyReference).2.arena = earlyReference.arena := by
  have coherent := earlyReference_nonRecursive.invariant.1
  have inside : (⟨4⟩ : ExprId).number < earlyReference.arena.size := by decide
  exact ((coherent.yields_nullable inside).settle false).2.1

theorem arena_lateDefinition :
    lateDefinition.arena = (earlyReference.arena.bind ⟨4⟩ .empty).2 := by
  have sameArena := arena_nullable_earlyReference
  unfold lateDefinition
  generalize ((Call.nullable ⟨4⟩).run earlyReference).2 = asked at sameArena
  obtain ⟨_, _, _, _, _⟩ := asked
  cases sameArena
  rfl

theorem lateDefinition_nonRecursive : lateDefinition.NonRecursive := by
  have asked := NonRecursive.call (.nullable ⟨4⟩) earlyReference_nonRecursive (by decide) nofun
  have inside : ∀ id ∈ (Call.define ⟨4⟩ (.expr .empty)).ids,
      id.number < ((Call.nullable ⟨4⟩).run earlyReference).2.arena.size := by
    rw [arena_nullable_earlyReference]
    decide
  refine .call (.define ⟨4⟩ (.expr .empty)) asked inside fun _ => ?_
  have wellFormed := (asked.invariant.1.grows_run _ inside).coherent.wellFormed
  refine wellFormed.not_transGen_of_decreasing ?_
  change ∀ number < lateDefinition.arena.size, ∀ o ∈ lateDefinition.arena.operands ⟨number⟩,
    o.number < number
  rw [arena_lateDefinition]
  decide

theorem answers_eq_recursion_lateDefinition :
    lateDefinition.NonRecursive ∧ (nullable ⟨4⟩ lateDefinition).1 = true := by
  have unfolds : lateDefinition.arena.Unfolds ∅ ⟨4⟩ (.node .empty) := by
    rw [arena_lateDefinition]
    exact .link rfl (.leaf (e := .empty) rfl rfl)
  exact ⟨lateDefinition_nonRecursive,
    ((answers_eq_recursion lateDefinition_nonRecursive).2.1 unfolds).1.mpr trivial⟩

end Residual.Grammar
