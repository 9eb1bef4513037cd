import Residual.Proofs.Arena.Unfolding
import Residual.Proofs.Grammar.Equality
import Residual.Proofs.Grammar.Nullability

/-!
# Analyses answer as plain recursion does

Where expressions unfold to trees, the tables of the analyses tell of an expression what plain
recursion tells of its tree.  That lasts while the arena grows, as long as no references are
defined: the links that are bound in the meantime are placeholders, of which the tables tell
nothing.
-/

set_option autoImplicit false

namespace Residual

open Memo

/-- The answers of the readings of all operands, if each of them leaves no choice. -/
theorem Expr.eq_map_of_answers {Operand Key Value Answer : Type} {Holds : Key → Value → Prop}
    {f : Operand → Reading Key Value Answer} {values : Operand → Answer} {e : Expr Operand}
    {result : Expr Answer} (answers : (e.mapM f).Answers Holds result)
    (each : ∀ o ∈ e.operands, ∀ answer, (f o).Answers Holds answer → answer = values o) :
    result = e.map values := by
  cases e with
  | any | empty | nil | char _ | range _ _ | token _ => exact Reading.Answers.pure_iff.mp answers
  | alt x y | cat x y =>
      simp only [Expr.mapM, Reading.Answers.bind_iff, Reading.Answers.pure_iff] at answers
      obtain ⟨first, answers, second, answers', rfl⟩ := answers
      rw [each x (by simp [operands]) first answers, each y (by simp [operands]) second answers']
      rfl
  | not x | opt x | plus x | star x | rep x _ =>
      simp only [Expr.mapM, Reading.Answers.bind_iff, Reading.Answers.pure_iff] at answers
      obtain ⟨only, answers, rfl⟩ := answers
      rw [each x (by simp [operands]) only answers]
      rfl

namespace Arena

variable {arena before after : Arena} {placeholders placeholders' : Set ExprId}
  {id x y : ExprId} {tree tree' : Tree} {trees : ExprId → Tree} {Value : Type}

/-- The value is right for the tree of an expression. -/
def Shows (arena : Arena) (placeholders : Set ExprId) (Tells : Tree → Value → Prop) (id : ExprId)
    (value : Value) : Prop :=
  ∃ tree, arena.Unfolds placeholders id tree ∧ Tells tree value

/-- The value tells whether two expressions have the same tree. -/
def ShowsEqual (arena : Arena) (placeholders : Set ExprId) (pair : ExprId × ExprId)
    (value : Bool) : Prop :=
  ∃ tree tree', arena.Unfolds placeholders pair.1 tree ∧ arena.Unfolds placeholders pair.2 tree' ∧
    (value = true ↔ tree = tree')

/-- The answer of an equation is right for a tree if those that it was told are right for the trees
of the operands. -/
def Recurses (arena : Arena) (placeholders : Set ExprId)
    (equation : ExprId → Reading ExprId Value Value) (Tells : Tree → Value → Prop) : Prop :=
  ∀ {id tree value}, arena.Unfolds placeholders id tree →
    (equation id).Answers (arena.Shows placeholders Tells) value → Tells tree value

theorem Shows.tells {Tells : Tree → Value → Prop} {value : Value}
    (isShown : arena.Shows placeholders Tells id value)
    (unfolds : arena.Unfolds placeholders id tree) : Tells tree value := by
  obtain ⟨tree', unfolds', tells⟩ := isShown
  exact unfolds'.unique unfolds ▸ tells

theorem Shows.fills {Tells : Tree → Value → Prop} {value : Value}
    (isShown : before.Shows placeholders Tells id value)
    (filling : Fills placeholders placeholders' before after) :
    after.Shows placeholders' Tells id value := by
  obtain ⟨tree, unfolds, tells⟩ := isShown
  exact ⟨tree, unfolds.fills filling, tells⟩

theorem ShowsEqual.tells {value : Bool}
    (isShown : arena.ShowsEqual placeholders (unorderedPair x y) value)
    (unfolds : arena.Unfolds placeholders x tree) (unfolds' : arena.Unfolds placeholders y tree') :
    value = true ↔ tree = tree' := by
  obtain ⟨first, second, isFirst, isSecond, tells⟩ := isShown
  rcases unorderedPair_cases x y with order | order <;> rw [order] at isFirst isSecond
  · rw [tells, isFirst.unique unfolds, isSecond.unique unfolds']
  · rw [tells, isFirst.unique unfolds', isSecond.unique unfolds, eq_comm]

theorem Unfoldable.unorderedPair (unfoldable : arena.Unfoldable placeholders x)
    (unfoldable' : arena.Unfoldable placeholders y) :
    arena.Unfoldable placeholders (unorderedPair x y).1 ∧
      arena.Unfoldable placeholders (unorderedPair x y).2 := by
  rcases unorderedPair_cases x y with order | order <;> rw [order]
  · exact ⟨unfoldable, unfoldable'⟩
  · exact ⟨unfoldable', unfoldable⟩

theorem ShowsEqual.fills {pair : ExprId × ExprId} {value : Bool}
    (isShown : before.ShowsEqual placeholders pair value)
    (filling : Fills placeholders placeholders' before after) :
    after.ShowsEqual placeholders' pair value := by
  obtain ⟨tree, tree', unfolds, unfolds', tells⟩ := isShown
  exact ⟨tree, tree', unfolds.fills filling, unfolds'.fills filling, tells⟩

section Equations

variable (wellFormed : arena.WellFormed)

include wellFormed

/-- A tree is made of the trees of its operands, and what is shown of these is right. -/
theorem Unfolds.exists_trees (unfolds : arena.Unfolds placeholders id tree)
    (Tells : Tree → Value → Prop) : ∃ trees : ExprId → Tree,
      tree.root = (arena.get id).map trees ∧
      (∀ o ∈ (arena.get id).operands, arena.Unfolds placeholders o (trees o)) ∧
      ∀ o ∈ (arena.get id).operands, ∀ value,
        arena.Shows placeholders Tells (arena.resolve o) value → Tells (trees o) value := by
  obtain ⟨trees, below, root⟩ := unfolds.root_eq wellFormed
  exact ⟨trees, root, below, fun o member value isShown =>
    isShown.tells ((below o member).resolve wellFormed)⟩

theorem nullabilityEquation_recurses : arena.Recurses placeholders arena.nullabilityEquation
    fun tree value => (value = true ↔ tree.Nullable) := by
  intro id tree value unfolds answers
  obtain ⟨trees, root, _, operands⟩ := unfolds.exists_trees wellFormed _
  rw [Tree.nullable_iff, root, Expr.map_map]
  exact nullabilityEquation_related (fun value condition => (value = true ↔ condition))
    (by simp) (by simp) (by grind) (by grind) (by grind) answers operands

theorem heightEquation_recurses : arena.Recurses placeholders arena.heightEquation
    fun tree value => value = tree.height := by
  intro id tree value unfolds answers
  obtain ⟨trees, root, _, operands⟩ :=
    unfolds.exists_trees wellFormed fun tree value => value = tree.height
  unfold heightEquation Arena.operands at answers
  simp only [List.mapM_map, Reading.Answers.bind_iff, Reading.Answers.pure_iff] at answers
  obtain ⟨heights, answers, rfl⟩ := answers
  have isHeights : heights = (arena.get id).operands.map fun o => (trees o).height :=
    answers.mapM fun o member height answers =>
      operands o member height (Reading.Answers.read_iff.mp answers)
  rw [Tree.height_eq, root, Expr.operands_map, List.map_map, isHeights]
  rfl

theorem renderingEquation_recurses : arena.Recurses placeholders arena.renderingEquation
    fun tree value => value = tree.render := by
  intro id tree value unfolds answers
  obtain ⟨trees, root, below, operands⟩ :=
    unfolds.exists_trees wellFormed fun tree value => value = tree.render
  unfold renderingEquation at answers
  simp only [Reading.Answers.bind_iff, Reading.Answers.pure_iff] at answers
  obtain ⟨texts, answers, rfl⟩ := answers
  rw [Tree.render_eq, root, Expr.map_map, Expr.eq_map_of_answers answers]
  intro o member text answers
  simp only [Reading.Answers.bind_iff, Reading.Answers.pure_iff, Reading.Answers.read_iff]
    at answers
  obtain ⟨text, isText, rfl⟩ := answers
  obtain ⟨trees', _, root'⟩ := (below o member).root_eq wellFormed
  rw [root', Expr.isAtomic_map, operands o member text isText]

/-- The answer for a pair of resolved numbers tells whether they have the same tree. -/
theorem eq_true_iff_of_equalityEquation {value : Bool} (inPairs : (x, y) ∈ arena.pairs)
    (unfolds : arena.Unfolds placeholders x tree) (unfolds' : arena.Unfolds placeholders y tree')
    (answers : (arena.equalityEquation (x, y)).Answers (arena.ShowsEqual placeholders) value) :
    value = true ↔ tree = tree' := by
  obtain ⟨_, resolved, resolved'⟩ := mem_pairs.mp inPairs
  constructor
  · rintro rfl
    rcases matched_of_answers wellFormed inPairs answers with
      rfl | ⟨e, e', found, found', sameShape, operands⟩
    · exact unfolds.unique unfolds'
    · obtain ⟨trees, below, rfl⟩ := unfolds.of_expr found
      obtain ⟨trees', below', rfl⟩ := unfolds'.of_expr found'
      have same : e.map trees = e'.map trees' := by
        refine Expr.map_eq_map_iff.mpr ⟨sameShape, (forall₂_mem operands).imp ?_⟩
        rintro o o' ⟨member, member', isShown⟩
        exact (isShown.tells ((below o member).resolve wellFormed)
          ((below' o' member').resolve wellFormed)).mp rfl
      rw [same]
  · rintro rfl
    refine true_of_answers ?_ answers
    rcases unfolds.cases_resolve wellFormed with ⟨_, rfl⟩ | ⟨e, trees, found, below, rfl⟩
    · rcases unfolds'.cases_resolve wellFormed with ⟨_, same⟩ | ⟨_, _, _, _, same⟩
      · rw [resolved, resolved'] at same
        exact .inl (Tree.undefined.inj same)
      · cases same
    · rcases unfolds'.cases_resolve wellFormed with ⟨_, same⟩ | ⟨e', trees', found', below', same⟩
      · cases same
      · obtain ⟨sameShape, operands⟩ := Expr.map_eq_map_iff.mp (Tree.node.inj same)
        rw [Stands, resolved] at found
        rw [Stands, resolved'] at found'
        refine .inr ⟨e, e', found, found', sameShape, (forall₂_mem operands).imp ?_⟩
        rintro o o' ⟨member, member', same⟩ told isShown
        exact (isShown.tells ((below o member).resolve wellFormed)
          ((below' o' member').resolve wellFormed)).mpr same

end Equations

end Arena

namespace Grammar

variable {grammar : Grammar} {placeholders : Set ExprId} {id x y : ExprId} {tree tree' : Tree}

section Analyses

variable {Value : Type} [BEq Value] [LawfulBEq Value] {table : Tables → Table ExprId Value}
  {modifyTable : (Table ExprId Value → Table ExprId Value) → Tables → Tables}

/-- An analysis by expressions, whose equation follows the recursion of trees, records what is right
for them. -/
theorem yields_analysis_shows (isField : Tables.IsField table modifyTable)
    (wellFormed : grammar.arena.WellFormed) {bottom : Value}
    {equation : Arena → ExprId → Reading ExprId Value Value} {Tells : Tree → Value → Prop}
    (asks : ∀ id, (equation grammar.arena id).Asks fun other => grammar.arena.Child id other)
    (recurses : grammar.arena.Recurses placeholders (equation grammar.arena) Tells)
    (records : (table grammar.tables).Records (grammar.arena.Shows placeholders Tells))
    (unfolds : grammar.arena.Unfolds placeholders id tree) :
    ((analysis table modifyTable bottom equation).solve (grammar.arena.size + 1)
      (grammar.arena.resolve id)).Yields grammar fun value after =>
        Aside modifyTable grammar after ∧
          (table after.tables).Records (grammar.arena.Shows placeholders Tells) ∧
          Tells tree value := by
  classical
  let unfoldable := grammar.arena.ids.filter (grammar.arena.Unfoldable placeholders)
  have mem_unfoldable : ∀ {id}, grammar.arena.Unfoldable placeholders id → id ∈ unfoldable :=
    fun isUnfoldable =>
      Finset.mem_filter.mpr ⟨Arena.mem_ids.mpr isUnfoldable.lt_size, isUnfoldable⟩
  let system : EquationSystem ExprId Value :=
    { equation := equation grammar.arena
      bottom := fun _ => bottom
      keys := unfoldable
      Asks := grammar.arena.Child
      Bound := grammar.arena.Shows placeholders Tells
      asks := fun id member => (asks id).mono fun other child =>
        ⟨child, mem_unfoldable ((Finset.mem_filter.mp member).2.child wellFormed child)⟩
      bottom_bound := fun id member cycle => by
        obtain ⟨tree, unfolds⟩ := (Finset.mem_filter.mp member).2
        have grounded := wellFormed.grounded_resolve.mp (unfolds.grounded wellFormed)
        exact absurd cycle (Arena.not_transGen_of_acc grounded)
      equation_bound := fun id member value answers => by
        obtain ⟨tree, unfolds⟩ := (Finset.mem_filter.mp member).2
        exact ⟨tree, unfolds, recurses unfolds answers⟩ }
  have unfolds := unfolds.resolve wellFormed
  refine (yields_analysis_records isField system (fun _ _ => rfl) rfl records
    (mem_unfoldable ⟨tree, unfolds⟩)
    (Nat.lt_succ_of_le ((Finset.card_filter_le _ _).trans grammar.arena.card_ids_le))).mono ?_
  rintro value after ⟨aside, records, isShown⟩
  exact ⟨aside, records, isShown.tells unfolds⟩

end Analyses

/-- All expressions but the placeholders have a tree, and the tables of the analyses are right for
the trees. -/
structure Unfolded (placeholders : Set ExprId) (grammar : Grammar) : Prop where
  wellFormed : grammar.arena.WellFormed
  unbound : ∀ {link}, link ∈ placeholders → grammar.arena.slot? link = some (.link none)
  unfoldable : ∀ {id : ExprId}, id.number < grammar.arena.size → id ∉ placeholders →
    grammar.arena.Unfoldable placeholders id
  nullability : grammar.tables.nullability.Records
    (grammar.arena.Shows placeholders fun tree value => (value = true ↔ tree.Nullable))
  heights : grammar.tables.heights.Records
    (grammar.arena.Shows placeholders fun tree value => value = tree.height)
  renderings : grammar.tables.renderings.Records
    (grammar.arena.Shows placeholders fun tree value => value = tree.render)
  equalities : grammar.tables.equalities.Records (grammar.arena.ShowsEqual placeholders)

/-- Without placeholders every expression has a tree. -/
theorem Unfolded.exists_tree (unfolded : grammar.Unfolded ∅)
    (inside : id.number < grammar.arena.size) : ∃ tree, grammar.arena.Unfolds ∅ id tree :=
  unfolded.unfoldable inside (Set.notMem_empty id)

namespace Unfolded

variable (unfolded : grammar.Unfolded placeholders)
  (unfolds : grammar.arena.Unfolds placeholders id tree)

include unfolded unfolds

theorem yields_nullable : (computeNullable id).Yields grammar fun value after =>
    (value = true ↔ tree.Nullable) ∧ after.Unfolded placeholders ∧
      Aside (fun f tables => { tables with nullability := f tables.nullability }) grammar after := by
  unfold computeNullable
  simp only [Eval.yields_bind, Eval.yields_get]
  refine (yields_analysis_shows nullability_isField unfolded.wellFormed
    (fun _ => (Arena.nullabilityEquation_asks unfolded.wellFormed).mono fun _ asked => asked.1.2)
    (Arena.nullabilityEquation_recurses unfolded.wellFormed) unfolded.nullability unfolds).mono ?_
  rintro value ⟨_, _, _, _, _⟩ ⟨⟨rfl, rfl, rfl, f, rfl⟩, records, tells⟩
  exact ⟨tells, { unfolded with nullability := records }, rfl, rfl, rfl, f, rfl⟩

theorem yields_height : (computeHeight id).Yields grammar fun value after =>
    value = tree.height ∧ after.Unfolded placeholders ∧
      Aside (fun f tables => { tables with heights := f tables.heights }) grammar after := by
  unfold computeHeight
  simp only [Eval.yields_bind, Eval.yields_get]
  refine (yields_analysis_shows heights_isField unfolded.wellFormed (Arena.heightEquation_asks _)
    (Arena.heightEquation_recurses unfolded.wellFormed) unfolded.heights unfolds).mono ?_
  rintro value ⟨_, _, _, _, _⟩ ⟨⟨rfl, rfl, rfl, f, rfl⟩, records, tells⟩
  exact ⟨tells, { unfolded with heights := records }, rfl, rfl, rfl, f, rfl⟩

theorem yields_render : (computeRendering id).Yields grammar fun value after =>
    value = tree.render ∧ after.Unfolded placeholders ∧
      Aside (fun f tables => { tables with renderings := f tables.renderings }) grammar after := by
  unfold computeRendering
  simp only [Eval.yields_bind, Eval.yields_get]
  refine (yields_analysis_shows renderings_isField unfolded.wellFormed
    (Arena.renderingEquation_asks _) (Arena.renderingEquation_recurses unfolded.wellFormed)
    unfolded.renderings unfolds).mono ?_
  rintro value ⟨_, _, _, _, _⟩ ⟨⟨rfl, rfl, rfl, f, rfl⟩, records, tells⟩
  exact ⟨tells, { unfolded with renderings := records }, rfl, rfl, rfl, f, rfl⟩

theorem yields_equal (unfolds' : grammar.arena.Unfolds placeholders y tree') :
    (computeEqual id y).Yields grammar fun value after =>
      (value = true ↔ tree = tree') ∧ after.Unfolded placeholders ∧
        Aside (fun f tables => { tables with equalities := f tables.equalities }) grammar after := by
  classical
  have wellFormed := unfolded.wellFormed
  let unfoldable := grammar.arena.pairs.filter fun pair =>
    grammar.arena.Unfoldable placeholders pair.1 ∧ grammar.arena.Unfoldable placeholders pair.2
  let system : EquationSystem (ExprId × ExprId) Bool :=
    { equation := grammar.arena.equalityEquation
      bottom := fun _ => true
      keys := unfoldable
      Asks := grammar.arena.PairChild
      Bound := grammar.arena.ShowsEqual placeholders
      asks := fun pair member => (Arena.equalityEquation_asks wellFormed pair).mono
        fun other ⟨⟨_, child⟩, inPairs⟩ => by
          refine ⟨child, Finset.mem_filter.mpr ⟨inPairs, ?_⟩⟩
          obtain ⟨o, o', child, child', rfl⟩ := child
          have here := (Finset.mem_filter.mp member).2.1.child wellFormed child
          have here' := (Finset.mem_filter.mp member).2.2.child wellFormed child'
          exact here.unorderedPair here'
      bottom_bound := fun pair member cycle => by
        obtain ⟨⟨tree, unfolds⟩, _⟩ := (Finset.mem_filter.mp member).2
        have grounded := wellFormed.grounded_resolve.mp (unfolds.grounded wellFormed)
        exact absurd cycle (Arena.not_transGen_of_acc (Arena.acc_pairChild grounded pair (.inl rfl)))
      equation_bound := fun pair member value answers => by
        obtain ⟨inPairs, ⟨tree, unfolds⟩, tree', unfolds'⟩ := Finset.mem_filter.mp member
        exact ⟨tree, tree', unfolds, unfolds', Arena.eq_true_iff_of_equalityEquation wellFormed inPairs
          unfolds unfolds' answers⟩ }
  have inUnfoldable : Arena.unorderedPair (grammar.arena.resolve id) (grammar.arena.resolve y) ∈
      unfoldable := by
    refine Finset.mem_filter.mpr ⟨Arena.unorderedPair_mem_pairs wellFormed unfolds.lt_size
      unfolds'.lt_size, ?_⟩
    have here : grammar.arena.Unfoldable placeholders (grammar.arena.resolve id) :=
      ⟨tree, unfolds.resolve wellFormed⟩
    have here' : grammar.arena.Unfoldable placeholders (grammar.arena.resolve y) :=
      ⟨tree', unfolds'.resolve wellFormed⟩
    exact here.unorderedPair here'
  unfold computeEqual
  simp only [Eval.yields_bind, Eval.yields_get]
  refine (yields_analysis_records equalities_isField system (fun _ _ => rfl) rfl
    unfolded.equalities inUnfoldable
    (Nat.lt_succ_of_le ((Finset.card_filter_le _ _).trans grammar.arena.card_pairs_le))).mono ?_
  rintro value ⟨_, _, _, _, _⟩ ⟨⟨rfl, rfl, rfl, f, rfl⟩, records, isShown⟩
  exact ⟨isShown.tells (unfolds.resolve wellFormed) (unfolds'.resolve wellFormed),
    { unfolded with equalities := records }, rfl, rfl, rfl, f, rfl⟩

end Unfolded

/-- If all expressions have a tree and the tables are right for the trees, it is still so after the
computation. -/
def KeepsUnfolded {Answer : Type} (grammar : Grammar) (computation : Eval Grammar Answer) : Prop :=
  Ensures computation grammar fun _ after => grammar.Unfolded ∅ → after.Unfolded ∅

theorem keepsUnfolded_nullable (inside : id.number < grammar.arena.size) :
    grammar.KeepsUnfolded (computeNullable id) := by
  refine .of_imp fun unfolded => ?_
  obtain ⟨tree, unfolds⟩ := unfolded.exists_tree inside
  exact (unfolded.yields_nullable unfolds).ensures.mono fun _ _ shown => shown.2.1

theorem keepsUnfolded_height (inside : id.number < grammar.arena.size) :
    grammar.KeepsUnfolded (computeHeight id) := by
  refine .of_imp fun unfolded => ?_
  obtain ⟨tree, unfolds⟩ := unfolded.exists_tree inside
  exact (unfolded.yields_height unfolds).ensures.mono fun _ _ shown => shown.2.1

theorem keepsUnfolded_render (inside : id.number < grammar.arena.size) :
    grammar.KeepsUnfolded (computeRendering id) := by
  refine .of_imp fun unfolded => ?_
  obtain ⟨tree, unfolds⟩ := unfolded.exists_tree inside
  exact (unfolded.yields_render unfolds).ensures.mono fun _ _ shown => shown.2.1

theorem keepsUnfolded_equal (inside : x.number < grammar.arena.size)
    (inside' : y.number < grammar.arena.size) : grammar.KeepsUnfolded (computeEqual x y) := by
  refine .of_imp fun unfolded => ?_
  obtain ⟨tree, unfolds⟩ := unfolded.exists_tree inside
  obtain ⟨tree', unfolds'⟩ := unfolded.exists_tree inside'
  exact (unfolded.yields_equal unfolds unfolds').ensures.mono fun _ _ shown => shown.2.1

/-! ## Growth -/

namespace Unfolded

variable {placeholders' : Set ExprId} {arena : Arena} {link : ExprId} {e : Expr ExprId}
  (unfolded : grammar.Unfolded placeholders)

include unfolded

/-- Nothing that was shown is changed by binding placeholders.  What has a tree only now has to be
looked at. -/
theorem fills (filling : Arena.Fills placeholders placeholders' grammar.arena arena)
    (wellFormed : arena.WellFormed)
    (unbound : ∀ {link}, link ∈ placeholders' → arena.slot? link = some (.link none))
    (others : ∀ {id : ExprId}, id.number < arena.size → id ∉ placeholders' →
      grammar.arena.size ≤ id.number ∨ id ∈ placeholders → arena.Unfoldable placeholders' id) :
    Unfolded placeholders' { grammar with arena } where
  wellFormed := wellFormed
  unbound := unbound
  unfoldable {id} inside isExpression := by
    by_cases older : id.number < grammar.arena.size
    · by_cases wasPlaceholder : id ∈ placeholders
      · exact others inside isExpression (.inr wasPlaceholder)
      · exact (unfolded.unfoldable older wasPlaceholder).fills filling
    · exact others inside isExpression (.inl (Nat.le_of_not_lt older))
  nullability := unfolded.nullability.mono fun _ _ isShown => isShown.fills filling
  heights := unfolded.heights.mono fun _ _ isShown => isShown.fills filling
  renderings := unfolded.renderings.mono fun _ _ isShown => isShown.fills filling
  equalities := unfolded.equalities.mono fun _ _ isShown => isShown.fills filling

theorem unbound_extends (extending : grammar.arena.Extends arena)
    (isPlaceholder : link ∈ placeholders) : arena.slot? link = some (.link none) := by
  have unbound := unfolded.unbound isPlaceholder
  exact (extending _ (Arena.lt_size_of_slot? unbound)).trans unbound

/-- A new expression has a tree. -/
theorem push (operands : ∀ o ∈ e.operands, grammar.arena.Unfoldable placeholders o) :
    Unfolded placeholders { grammar with arena := (grammar.arena.push e).2 } := by
  have wellFormed := unfolded.wellFormed
  have extending := Arena.extends_push grammar.arena e
  have filling : Arena.Fills placeholders placeholders _ _ := .of_extends extending
  refine unfolded.fills filling (wellFormed.push fun o member => (operands o member).lt_size)
    (unfolded.unbound_extends extending) fun {id} inside isExpression isNew => ?_
  obtain ⟨slot, found⟩ := Arena.exists_slot? inside
  obtain rfl := Arena.slot_eq_of_push (isNew.resolve_right isExpression) found
  exact .node found fun o member => (operands o member).fills filling

theorem intern (text : String) :
    Unfolded placeholders { grammar with arena := grammar.arena.intern text } := by
  have extending := Arena.extends_intern grammar.arena text
  refine unfolded.fills (.of_extends extending) (unfolded.wellFormed.intern text)
    (unfolded.unbound_extends extending) fun inside isExpression isNew => ?_
  exact absurd inside (Nat.not_lt_of_le (isNew.resolve_right isExpression))

/-- A new reference is not defined. -/
theorem reserve : Unfolded placeholders { grammar with arena := grammar.arena.reserve.2 } := by
  have extending := Arena.extends_reserve grammar.arena
  refine unfolded.fills (.of_extends extending) unfolded.wellFormed.reserve
    (unfolded.unbound_extends extending) fun {id} inside isExpression isNew => ?_
  obtain rfl := Arena.eq_reserve_of_new inside
    (Nat.not_lt_of_le (isNew.resolve_right isExpression))
  exact ⟨_, .undefined (Arena.slot?_reserve _) isExpression⟩

/-- A new link that is a placeholder. -/
theorem reserve_placeholder : Unfolded (insert grammar.arena.reserve.1 placeholders)
    { grammar with arena := grammar.arena.reserve.2 } := by
  refine unfolded.fills (.reserve grammar.arena placeholders) unfolded.wellFormed.reserve ?_ ?_
  · rintro link (rfl | isPlaceholder)
    · exact Arena.slot?_reserve _
    · exact unfolded.unbound_extends (Arena.extends_reserve _) isPlaceholder
  · rintro id inside isExpression isNew
    obtain ⟨distinct, isExpression⟩ := not_or.mp isExpression
    exact absurd (Arena.eq_reserve_of_new inside
      (Nat.not_lt_of_le (isNew.resolve_right isExpression))) distinct

omit unfolded in
/-- A placeholder is bound to the expression that it stands for. -/
theorem bind (unfolded : grammar.Unfolded (insert link placeholders)) (isNew : link ∉ placeholders)
    (unfoldable : grammar.arena.Unfoldable (insert link placeholders) id) :
    Unfolded placeholders { grammar with arena := (grammar.arena.bind link id).2 } := by
  have unbound := unfolded.unbound (Set.mem_insert link placeholders)
  have filling : Arena.Fills (insert link placeholders) placeholders _ _ := .bind unbound id
  have wellFormed := unfolded.wellFormed
  refine unfolded.fills filling (wellFormed.bind id unbound unfoldable.lt_size) ?_ ?_
  · intro other isPlaceholder
    have distinct : other ≠ link := by
      rintro rfl
      exact isNew isPlaceholder
    exact (Arena.slot?_bind_of_ne id unbound distinct).trans
      (unfolded.unbound (Set.mem_insert_of_mem link isPlaceholder))
  · rintro other inside isExpression (isNew | rfl | isPlaceholder)
    · rw [Arena.size_bind id unbound] at inside
      exact absurd inside (Nat.not_lt_of_le isNew)
    · have target : (grammar.arena.bind other id).2.Unfoldable placeholders
          (grammar.arena.bindingTarget other id) := by
        have isTarget : grammar.arena.bindingTarget other id = id ∨
            grammar.arena.bindingTarget other id = .nil := Arena.bindingTarget_cases id
        rcases isTarget with same | same
        · rw [same]
          exact unfoldable.fills filling
        · rw [same]
          exact (Arena.Unfoldable.nil wellFormed).fills filling
      obtain ⟨tree, unfolds⟩ := target
      exact ⟨tree, .link (Arena.slot?_bind_link id unbound) unfolds⟩
    · exact absurd isPlaceholder isExpression

end Unfolded

end Grammar

end Residual
