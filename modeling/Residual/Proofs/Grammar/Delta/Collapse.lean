import Residual.Proofs.Grammar.Awaiting
import Residual.Proofs.Grammar.NormalForm.Rounds

/-!
# Deltas collapse

A delta is made of `ε` and `∅` by unions and concatenations, whatever it is the delta of.  Below an
expression without cycles and without `.` it amounts to `ε` if the expression has the empty string,
and to `∅` otherwise.  One simplification leaves nothing else of it.
-/

set_option autoImplicit false

namespace Residual

open Memo

variable {id : ExprId} {told told' : Bool}

/-! ## Trees -/

namespace Tree

/-- The tree of `ε` or of `∅`. -/
def truth (told : Bool) : Tree :=
  if told then node .empty else node .nil

theorem unite_truth : unite (truth told) (truth told') = truth (told || told') := by
  have single (l r : Tree) : truth told ≠ node (.alt l r) := by
    cases told <;> simp [truth]
  have height_eq (told : Bool) : (truth told).height = 1 := by
    cases told <;> simp [truth, Tree.height_eq, root, Expr.operands]
  have height_le : (truth told).height ≤ (truth told').height := by
    rw [height_eq, height_eq]
  rw [unite_eq_join single height_le]
  cases told <;> cases told' <;> simp [truth, join]

theorem reduce_cat_truth :
    reduce (.cat (truth told) (truth told')) = truth (told && told') := by
  cases told <;> cases told' <;> rfl

end Tree

namespace Arena

variable {arena before after : Arena} {link target : ExprId} {e : Expr ExprId}

/-! ## What deltas are made of -/

/-- The operators of deltas. -/
def IsSkeletal (operator : Expr Unit) : Prop :=
  operator ∈ [.alt () (), .cat () (), .empty, .nil]

namespace Tells

/-- No links are among the slots of a delta. -/
theorem exists_expr (tells : arena.Tells id told) (wellFormed : arena.WellFormed) :
    ∃ e, arena.slot? id = some (.expr e) ∧ IsSkeletal e.shape ∧
      ∀ o ∈ e.operands, ∃ told, arena.Tells o told := by
  cases tells with
  | empty =>
      refine ⟨_, wellFormed.empty, by simp [IsSkeletal, Expr.shape, Expr.map], ?_⟩
      simp [Expr.operands]
  | nil =>
      refine ⟨_, wellFormed.nil, by simp [IsSkeletal, Expr.shape, Expr.map], ?_⟩
      simp [Expr.operands]
  | alt found first second | cat found first second =>
      refine ⟨_, found, by simp [IsSkeletal, Expr.shape, Expr.map], ?_⟩
      simpa [Expr.operands, -Bool.exists_bool] using ⟨⟨_, first⟩, _, second⟩

theorem resolve_eq (tells : arena.Tells id told) (wellFormed : arena.WellFormed) :
    arena.resolve id = id := by
  obtain ⟨e, found, _⟩ := tells.exists_expr wellFormed
  exact resolve_of_expr found

theorem of_reaches (tells : arena.Tells id told) (wellFormed : arena.WellFormed) {other : ExprId}
    (reaches : arena.Reaches id other) : ∃ told, arena.Tells other told := by
  induction reaches with
  | refl => exact ⟨told, (tells.resolve_eq wellFormed).symm ▸ tells⟩
  | @tail above below _ child inductionHypothesis =>
      obtain ⟨told, tells⟩ := inductionHypothesis
      obtain ⟨e, found, _, operands⟩ := tells.exists_expr wellFormed
      obtain ⟨o, member, rfl⟩ := mem_operands_iff.mp child
      rw [get_of_stands (stands_of_expr found)] at member
      obtain ⟨told, tells⟩ := operands o member
      exact ⟨told, (tells.resolve_eq wellFormed).symm ▸ tells⟩

theorem throughout (tells : arena.Tells id told) (wellFormed : arena.WellFormed) :
    arena.Throughout id IsSkeletal ∧ arena.Defined id := by
  have below {other : ExprId} (reaches : arena.Reaches id other) :
      ∃ e, arena.slot? other = some (.expr e) ∧ IsSkeletal e.shape := by
    obtain ⟨told, tells⟩ := tells.of_reaches wellFormed reaches
    obtain ⟨e, found, isSkeletal, _⟩ := tells.exists_expr wellFormed
    exact ⟨e, found, isSkeletal⟩
  constructor
  · intro other reaches
    obtain ⟨e, found, isSkeletal⟩ := below reaches
    rwa [get_of_stands (stands_of_expr found)]
  · intro other reaches
    obtain ⟨e, found, _⟩ := below reaches
    simp [isUnbound, found]

/-- Nothing is bound below a delta. -/
theorem not_patched (tells : arena.Tells id told) (wellFormed : arena.WellFormed) {limit : Nat} :
    ¬ arena.Patched limit id := by
  intro patched
  induction tells with
  | empty =>
      obtain ⟨o, member, _⟩ := patched.exists_operand wellFormed.empty
      simp [Expr.operands] at member
  | nil =>
      obtain ⟨o, member, _⟩ := patched.exists_operand wellFormed.nil
      simp [Expr.operands] at member
  | alt found _ _ first second | cat found _ _ first second =>
      obtain ⟨o, member, patched⟩ := patched.exists_operand found
      simp only [Expr.operands, List.mem_cons, List.not_mem_nil, or_false] at member
      rcases member with rfl | rfl
      · exact first patched
      · exact second patched

/-- One round leaves `ε` or `∅`. -/
theorem simplify_tree (tells : arena.Tells id told) (wellFormed : arena.WellFormed) :
    (arena.tree id).simplify = .truth told := by
  have isClosed := tells.closed wellFormed
  induction tells with
  | empty => rw [isClosed.tree_of_expr wellFormed.empty]; rfl
  | nil => rw [isClosed.tree_of_expr wellFormed.nil]; rfl
  | alt found tells tells' first second =>
      rw [isClosed.tree_of_expr found, Expr.map, Tree.simplify_alt, first (tells.closed wellFormed),
        second (tells'.closed wellFormed), Tree.unite_truth]
  | cat found tells tells' first second =>
      rw [isClosed.tree_of_expr found, Expr.map, Tree.simplify_node (by simp), Expr.map,
        first (tells.closed wellFormed), second (tells'.closed wellFormed), Tree.reduce_cat_truth]

end Tells

/-! ## Shared slots -/

/-- `ε` and `∅` have one slot each. -/
structure SharesAtoms (arena : Arena) : Prop where
  empty : ∀ {id : ExprId}, arena.slot? id = some (.expr .empty) → id = .empty
  nil : ∀ {id : ExprId}, arena.slot? id = some (.expr .nil) → id = .nil

theorem sharesAtoms_initial : initial.SharesAtoms := by
  constructor
  all_goals
    rintro ⟨_ | _ | _ | number⟩ found
    all_goals first | rfl | cases found

/-- No slots come with these operators. -/
theorem SharesAtoms.of_new (shares : before.SharesAtoms)
    (isNew : ∀ {id : ExprId} {e : Expr ExprId}, after.slot? id = some (.expr e) →
      before.slot? id = some (.expr e) ∨ e ≠ .empty ∧ e ≠ .nil) : after.SharesAtoms where
  empty found := by
    rcases isNew found with found | ⟨other, _⟩
    · exact shares.empty found
    · exact absurd rfl other
  nil found := by
    rcases isNew found with found | ⟨_, other⟩
    · exact shares.nil found
    · exact absurd rfl other

theorem SharesAtoms.push (shares : arena.SharesAtoms) (e : Expr ExprId) :
    (arena.push e).2.SharesAtoms := by
  cases e with
  | any | empty | nil => exact shares
  | _ =>
      apply shares.of_new
      intro id e found
      rw [slot?_of_push_slots (show _ = arena.slots.push (.expr _) from rfl)] at found
      split at found
      · cases found
        exact .inr (by simp)
      · exact .inl found

theorem SharesAtoms.reserve (shares : arena.SharesAtoms) : arena.reserve.2.SharesAtoms := by
  apply shares.of_new
  intro id e found
  rw [slot?_of_push_slots (show _ = arena.slots.push (.link none) from rfl)] at found
  split at found
  · cases found
  · exact .inl found

theorem SharesAtoms.bind (shares : arena.SharesAtoms) : (arena.bind link target).2.SharesAtoms := by
  apply shares.of_new
  intro id e found
  by_cases unbound : arena.slot? link = some (.link none)
  · rw [slot?_bind target unbound] at found
    split at found
    · cases found
    · exact .inl found
  · rw [bind_of_not_unbound unbound] at found
    exact .inl found

end Arena

namespace Grammar

variable {before after grammar : Grammar} {value : ExprId}

theorem Discharges.sharesAtoms (discharges : before.Discharges after)
    (shares : before.arena.SharesAtoms) : after.arena.SharesAtoms := by
  induction discharges with
  | @aside before after sameSlots _ =>
      have same (id : ExprId) : after.arena.slot? id = before.arena.slot? id := by
        unfold Arena.slot?
        rw [sameSlots]
      exact ⟨fun found => shares.empty (same _ ▸ found), fun found => shares.nil (same _ ▸ found)⟩
  | push grammar e => exact shares.push e
  | simplification _ _ _ inductionHypothesis => exact (inductionHypothesis shares.reserve).bind
  | derivation _ _ _ inductionHypothesis => exact (inductionHypothesis shares.reserve).bind
  | trans _ _ first second => exact second (first shares)

theorem Reachable.sharesAtoms (reachable : grammar.Reachable) : grammar.arena.SharesAtoms := by
  obtain ⟨config, evolves⟩ := reachable
  induction evolves with
  | refl => exact Arena.sharesAtoms_initial
  | @call grammar call evolves inside shares =>
      have coherent := ((Coherent.ofConfig config).evolves evolves).coherent
      cases call with
      | declare => exact shares.reserve
      | define link lang =>
          change Gives (Grammar.define link lang) grammar fun _ after => after.arena.SharesAtoms
          apply (coherent.define_binds link lang fun id member =>
            inside id (by simp [Call.ids, member])).mono
          rintro result after ⟨made, discharges, ⟨_, rfl⟩ | ⟨_, target, isArena⟩⟩
          · exact discharges.sharesAtoms shares
          · rw [isArena]
            exact (discharges.sharesAtoms shares).bind
      | tie link target => exact shares.bind
      | _ => exact (coherent.discharges_run _ inside rfl (by simp)).sharesAtoms shares

theorem Reachable.normal (reachable : grammar.Reachable) :
    grammar.Normal 0 ∧ grammar.Distinguishes 0 := by
  obtain ⟨config, evolves⟩ := reachable
  have grows := (Coherent.ofConfig config).evolves evolves
  have fresh : (ofConfig config).Normal 0 := .of_empty rfl ⟨_, rfl⟩
  exact ⟨grows.normal 0 (Nat.zero_le _) fresh, grows.distinguishes 0 (Nat.zero_le _) (.empty _ _ _)⟩

/-- What is told by a delta is what is left of it after one simplification. -/
theorem Reachable.simplify_tells (reachable : grammar.Reachable)
    (tells : grammar.arena.Tells id told) :
    Gives (Grammar.simplify id) grammar fun value after =>
      after.arena.resolve value = if told then .empty else .nil := by
  have coherent := reachable.coherent
  have wellFormed := coherent.wellFormed
  have inside := tells.lt_size wellFormed
  have closed := tells.closed wellFormed
  have resolve_tells := tells.resolve_eq wellFormed
  obtain ⟨normal, distinguishes⟩ := reachable.normal
  have discharged : Gives (Grammar.simplify id) grammar fun _ after => after.Reachable :=
    reachable.evolve (.call (.simplify id) .refl (by simp [Call.ids, inside]))
  apply ((coherent.simplify inside).and ((coherent.simplify_learns inside).and discharged)).mono
  rintro value after ⟨⟨normalizes, _⟩, learns, reachable'⟩
  obtain ⟨retains, normal, isTold⟩ := learns 0 (Nat.zero_le _) normal
  obtain ⟨isTold, isClosed, resolved⟩ := isTold closed
  have advances := normalizes.advances
  have tells := tells.extends advances.extending
  have wellFormed := advances.coherent.wellFormed
  have isTree : after.arena.tree value = .truth told := by
    rw [resolve_tells] at isTold
    rw [← tells.simplify_tree wellFormed]
    exact tree_simplified normal advances.coherent.equalities
      (advances.distinguishes 0 (Nat.zero_le _) distinguishes) isTold (tells.closed wellFormed)
      (tells.not_patched wellFormed)
  obtain ⟨isNil, isEmpty⟩ := isClosed.tree_eq_atom_iff
  rw [isTree] at isNil isEmpty
  have shares := reachable'.sharesAtoms
  have stands {e : Expr ExprId} (known : after.arena.get? value = some e) :
      after.arena.Stands value e := (wellFormed.get?_eq_some isClosed.lt_size).mp known
  cases told with
  | true => exact shares.empty (stands (isEmpty.mp rfl))
  | false => exact shares.nil (stands (isNil.mp rfl))

/-- Below an expression without cycles and without `.` the delta is made of `ε` and `∅` by unions and
concatenations, and one simplification of it leaves the one `ε` of the grammar if the expression has
the empty string, and the one `∅` otherwise.  Complements and repetitions of any kind may be below,
and anything may have been asked before. -/
theorem simplify_delta_eq_nullable (reachable : grammar.Reachable)
    (inside : id.number < grammar.arena.size) (acyclic : grammar.arena.Acyclic id)
    (dotless : grammar.arena.Dotless id) :
    Gives (delta id) grammar fun value after =>
      (after.arena.Throughout value Arena.IsSkeletal ∧ after.arena.Defined value) ∧
        Gives (Grammar.simplify value) after fun simple last =>
          last.arena.resolve simple = if (nullable id grammar).1 then .empty else .nil := by
  have coherent := reachable.coherent
  have wellFormed := coherent.wellFormed
  have called : Gives (delta id) grammar fun _ after => after.Reachable :=
    reachable.evolve (.call (.delta id) .refl (by simp [Call.ids, inside]))
  apply ((coherent.reduces inside).and called).mono
  rintro value after ⟨reduces, reachable'⟩
  obtain ⟨told, tells, supports⟩ := reduces.isDelta.tells
  obtain ⟨lang, denotes⟩ := wellFormed.exists_denotes acyclic
  have isTold : told = true ↔ [] ∈ lang := by
    have means : grammar.arena.Means .structural id lang := denotes
    exact supports.structural (wellFormed.throughout_resolve.mpr dotless) lang
      (wellFormed.means_resolve.mpr means)
  have isNullable : (nullable id grammar).1 = told := by
    obtain ⟨_, _, isNullable, _⟩ := (coherent.yields_nullable inside).settle false
    rw [Bool.eq_iff_iff, isTold]
    exact isNullable.exact .structural (by rintro ⟨⟩) lang denotes
  rw [isNullable]
  exact ⟨tells.throughout reachable'.coherent.wellFormed, reachable'.simplify_tells tells⟩

/-- The grammar of `¬('a'{∞}) 'b'{0} | ''`, which is the expression with the number ten. -/
def complementOrEmptyLiteral : Grammar :=
  let repeated := (rep (.char 'a') .infinite (ofConfig {})).2
  let complement := (Grammar.not (.expr ⟨4⟩) repeated).2
  let never := (rep (.char 'b') (.finite 0) complement).2
  let both := (cat (.expr ⟨5⟩) (.expr ⟨7⟩) never).2
  (alt (.expr ⟨8⟩) (.text "") both).2

theorem complementOrEmptyLiteral_reachable : complementOrEmptyLiteral.Reachable := by
  refine ⟨{}, .call (.alt (.expr ⟨8⟩) (.text "")) (.call (.cat (.expr ⟨5⟩) (.expr ⟨7⟩))
    (.call (.rep (.char 'b') (.finite 0)) (.call (.not (.expr ⟨4⟩))
      (.call (.rep (.char 'a') .infinite) .refl ?_) ?_) ?_) ?_) ?_⟩
  all_goals decide

theorem simplify_delta_eq_nullable_complement :
    Gives (delta ⟨10⟩) complementOrEmptyLiteral fun value after =>
      (after.arena.Throughout value Arena.IsSkeletal ∧ after.arena.Defined value) ∧
        Gives (Grammar.simplify value) after fun simple last => last.arena.resolve simple =
          if (nullable ⟨10⟩ complementOrEmptyLiteral).1 then .empty else .nil := by
  have acyclic : complementOrEmptyLiteral.arena.Acyclic ⟨10⟩ :=
    Arena.acyclic_of_forall (by decide)
  have dotless : complementOrEmptyLiteral.arena.Dotless ⟨10⟩ :=
    Arena.throughout_of_closed
      (show _ ∈ [(⟨10⟩ : ExprId), ⟨9⟩, ⟨8⟩, ⟨7⟩, ⟨6⟩, ⟨5⟩, ⟨4⟩, ⟨3⟩] by decide) (by decide) (by decide)
  exact simplify_delta_eq_nullable complementOrEmptyLiteral_reachable (by decide) acyclic dotless

end Grammar

end Residual
