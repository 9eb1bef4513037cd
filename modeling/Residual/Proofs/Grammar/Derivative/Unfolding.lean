import Residual.Proofs.Grammar.Derivative.Steps
import Residual.Proofs.Grammar.Transformation.Unfolding

/-!
# The derivatives of trees are trees

A derivation step asks for the derivatives of operands, and of new expressions that it makes for
options, ranges and literal strings.  The trees of all of them are lighter.
-/

set_option autoImplicit false

namespace Residual

namespace Tree

variable {tree : Tree} {e : Expr Tree}

/-- Only `∅` can be the root of an undefined reference. -/
theorem eq_node (root : tree.root = e) (nonempty : e ≠ .nil) : tree = .node e := by
  cases tree with
  | undefined link => exact absurd root.symm nonempty
  | node e' => exact congrArg node root

end Tree

namespace Grammar

open Memo

variable {placeholders : Set ExprId} {state between : Grammar}
  {recur : Derivation → Eval Grammar ExprId} {id o : ExprId} {c : Char} {tree lighter : Tree}

section Steps

variable (evaluating : Evaluating Tables.derivatives placeholders state)

include evaluating

theorem Evaluating.ensures_nullable (unfoldable : state.arena.Unfoldable placeholders id) :
    Ensures (computeNullable id) state fun _ after =>
      Progresses Tables.derivatives placeholders state after ∧ after.arena = state.arena := by
  obtain ⟨tree, unfolds⟩ := unfoldable
  exact evaluating.ensures_aside (evaluating.unfolded.yields_nullable unfolds) fun _ _ => rfl

/-- A literal string is a leaf. -/
theorem builds_token (text : String) :
    Builds Tables.derivatives placeholders state (liftM (token text)) := by
  unfold token
  split
  · exact evaluating.builds_push nofun
  · have interned := evaluating.unfolded.intern text
    have extending := (Arena.extends_intern state.arena text).trans
      (Arena.extends_push (state.arena.intern text) (.token text))
    unfold Builds
    rw [Eval.ensures_lift]
    exact ⟨evaluating.progresses (interned.push (e := .token text) nofun) (.of_extends extending)
      rfl, .node (Arena.slot?_push interned.wellFormed (.token text)) nofun⟩

variable (unfolds : state.arena.Unfolds placeholders id tree)
  (below : BuildsBelow Tables.derivatives Derivation.lang placeholders tree state recur)

include below

omit evaluating in
theorem builds_derive (progresses : Progresses Tables.derivatives placeholders state between)
    (unfolds : between.arena.Unfolds placeholders o lighter)
    (isLighter : lighter.weight < tree.weight) :
    Builds Tables.derivatives placeholders between (askOperand (fun id => recur ⟨id, c⟩) o) :=
  below.ask (⟨·, c⟩) (fun _ => rfl) progresses unfolds isLighter

include unfolds

omit evaluating in
theorem builds_derive_operand (wellFormed : state.arena.WellFormed)
    (progresses : Progresses Tables.derivatives placeholders state between)
    (member : o ∈ (state.arena.get id).operands) :
    Builds Tables.derivatives placeholders between (askOperand (fun id => recur ⟨id, c⟩) o) :=
  below.operand (⟨·, c⟩) (fun _ => rfl) progresses wellFormed unfolds member

theorem builds_derive_range {low high : Char} (isRange : state.arena.get id = .range low high) :
    Builds Tables.derivatives placeholders state (derivativeStep recur ⟨id, c⟩) := by
  have wellFormed := evaluating.unfolded.wellFormed
  obtain ⟨_, _, root⟩ := unfolds.root_eq wellFormed
  rw [isRange] at root
  obtain rfl : tree = .node (.range low high) := Tree.eq_node root (by simp)
  unfold derivativeStep
  simp only [builds_get, show state.get id = _ from isRange]
  split
  · refine .bind (evaluating.ensures_push (e := .char c) (by simp [Expr.operands])) ?_
    intro new between progresses found
    exact builds_derive below progresses (.leaf found rfl) Nat.zero_lt_one
  · exact builds_derive below evaluating.progresses_refl (.leaf wellFormed.nil rfl)
      Nat.zero_lt_one

theorem builds_derive_token {text : String} (isToken : state.arena.get id = .token text) :
    Builds Tables.derivatives placeholders state (derivativeStep recur ⟨id, c⟩) := by
  have wellFormed := evaluating.unfolded.wellFormed
  obtain ⟨_, _, root⟩ := unfolds.root_eq wellFormed
  rw [isToken] at root
  obtain rfl : tree = .node (.token text) := Tree.eq_node root (by simp)
  unfold derivativeStep
  simp only [builds_get, show state.get id = _ from isToken]
  split
  · exact builds_derive below evaluating.progresses_refl (.leaf wellFormed.empty rfl)
      Nat.zero_lt_one
  · rename_i first rest _
    refine .bind (evaluating.ensures_push (e := .char first) (by simp [Expr.operands])) ?_
    intro new between progresses found
    refine .bind (builds_derive below progresses (.leaf found rfl) Nat.zero_lt_one) ?_
    intro head between' progresses' isHead
    split
    · exact progresses'.evaluating.builds_pure isHead
    · refine .bind (builds_token progresses'.evaluating (String.ofList rest)) ?_
      intro tail between'' progresses'' isTail
      exact progresses''.evaluating.builds_above rfl (isHead.fills progresses''.filling) isTail

theorem builds_derive_cat {first second : ExprId}
    (isCat : state.arena.get id = .cat first second) :
    Builds Tables.derivatives placeholders state (derivativeStep recur ⟨id, c⟩) := by
  have wellFormed := evaluating.unfolded.wellFormed
  have unfoldable : state.arena.Unfoldable placeholders id := ⟨tree, unfolds⟩
  have first_mem : first ∈ (state.arena.get id).operands := by simp [isCat, Expr.operands]
  have second_mem : second ∈ (state.arena.get id).operands := by simp [isCat, Expr.operands]
  unfold derivativeStep
  simp only [builds_get, show state.get id = _ from isCat]
  refine .bind (builds_derive_operand unfolds below wellFormed evaluating.progresses_refl
    first_mem) ?_
  intro head between progresses isHead
  have isFirst := (unfoldable.operand wellFormed first_mem).fills progresses.filling
  have isSecond := (unfoldable.operand wellFormed second_mem).fills progresses.filling
  refine .bind (progresses.evaluating.builds_above rfl isHead isSecond) ?_
  intro cat between' progresses' isCat
  refine .bind (progresses'.evaluating.ensures_nullable (isFirst.fills progresses'.filling)) ?_
  intro isNullable between'' progresses'' sameArena
  rw [← sameArena] at isCat
  split
  · have onward := (progresses.trans progresses').trans progresses''
    refine .bind (builds_derive_operand unfolds below wellFormed onward second_mem) ?_
    intro tail after later isTail
    exact later.evaluating.builds_above rfl (isCat.fills later.filling) isTail
  · exact progresses''.evaluating.builds_pure isCat

/-- An option is derived as a union, which is lighter although it is new. -/
theorem builds_derive_opt {lang : ExprId} (isOpt : state.arena.get id = .opt lang) :
    Builds Tables.derivatives placeholders state (derivativeStep recur ⟨id, c⟩) := by
  have wellFormed := evaluating.unfolded.wellFormed
  obtain ⟨trees, operands, root⟩ := unfolds.root_eq wellFormed
  rw [isOpt] at root operands
  obtain rfl : tree = .node (.opt (trees lang)) := Tree.eq_node root (by simp)
  have isLang := operands lang (by simp [Expr.operands])
  have union : ∀ o ∈ (Expr.alt lang .empty).operands, state.arena.Unfoldable placeholders o := by
    intro o member
    rcases List.mem_pair.mp member with rfl | rfl
    · exact ⟨_, isLang⟩
    · exact .empty wellFormed
  unfold derivativeStep
  simp only [builds_get, show state.get id = _ from isOpt]
  refine .bind (evaluating.ensures_push union) ?_
  intro new between progresses found
  choose! trees' operands' using union
  have sameLang : trees' lang = trees lang :=
    (operands' lang (by simp [Expr.operands])).unique isLang
  have isEmpty : trees' .empty = .node .empty :=
    (operands' .empty (by simp [Expr.operands])).unique (.leaf wellFormed.empty rfl)
  refine builds_derive below progresses
    (.node trees' found fun o member => (operands' o member).fills progresses.filling) ?_
  change (trees' lang).weight + (trees' .empty).weight + 1 < (trees lang).weight + 2
  rw [sameLang, isEmpty]
  exact Nat.lt_succ_self _

theorem builds_derive_rep {lang : ExprId} {count : Count}
    (isRep : state.arena.get id = .rep lang count) :
    Builds Tables.derivatives placeholders state (derivativeStep recur ⟨id, c⟩) := by
  have wellFormed := evaluating.unfolded.wellFormed
  have unfoldable : state.arena.Unfoldable placeholders id := ⟨tree, unfolds⟩
  have member : lang ∈ (state.arena.get id).operands := by simp [isRep, Expr.operands]
  have derived := builds_derive_operand (c := c) unfolds below wellFormed
    evaluating.progresses_refl member
  unfold derivativeStep
  simp only [builds_get, show state.get id = _ from isRep]
  rcases count with (_ | _ | times) | _
  case finite.zero => exact evaluating.builds_empty
  case finite.succ.zero => exact derived
  case finite.succ.succ =>
    refine .bind derived ?_
    intro head between progresses isHead
    have isLang := (unfoldable.operand wellFormed member).fills progresses.filling
    refine .bind (progresses.evaluating.builds_push (e := .rep lang (.finite (times + 1)))
      (by simpa [Expr.operands] using isLang)) ?_
    intro rest between' progresses' isRest
    exact progresses'.evaluating.builds_above rfl (isHead.fills progresses'.filling) isRest
  case infinite =>
    unfold Builds
    simp only [ensures_bind, ensures_modify, ensures_pure]
    have unfolded : (fail .unboundedRepetition state).Unfolded placeholders :=
      { evaluating.unfolded with wellFormed := wellFormed }
    exact ⟨evaluating.progresses unfolded (.refl _ _) rfl, .nil wellFormed⟩

/-- A derivation step makes a tree of the trees that it is told. -/
theorem builds_derivativeStep :
    Builds Tables.derivatives placeholders state (derivativeStep recur ⟨id, c⟩) := by
  have wellFormed := evaluating.unfolded.wellFormed
  have unfoldable : state.arena.Unfoldable placeholders id := ⟨tree, unfolds⟩
  have derived : ∀ {o between}, Progresses Tables.derivatives placeholders state between →
      o ∈ (state.arena.get id).operands →
      Builds Tables.derivatives placeholders between (askOperand (fun id => recur ⟨id, c⟩) o) :=
    builds_derive_operand unfolds below wellFormed
  have atOnce := evaluating.progresses_refl
  cases isExpr : state.arena.get id with
  | range low high => exact builds_derive_range evaluating unfolds below isExpr
  | token text => exact builds_derive_token evaluating unfolds below isExpr
  | cat first second => exact builds_derive_cat evaluating unfolds below isExpr
  | opt lang => exact builds_derive_opt evaluating unfolds below isExpr
  | rep lang count => exact builds_derive_rep evaluating unfolds below isExpr
  | any =>
      simp only [derivativeStep, builds_get, show state.get id = _ from isExpr]
      exact evaluating.builds_empty
  | empty | nil =>
      simp only [derivativeStep, builds_get, show state.get id = _ from isExpr]
      exact evaluating.builds_nil
  | char c' =>
      simp only [derivativeStep, builds_get, show state.get id = _ from isExpr]
      by_cases same : c' = c
      · simpa only [same, if_true] using evaluating.builds_empty
      · simpa only [same, if_false] using evaluating.builds_nil
  | alt left right =>
      simp only [derivativeStep, builds_get, show state.get id = _ from isExpr]
      refine .bind (derived atOnce (by simp [isExpr, Expr.operands])) ?_
      intro head between progresses isHead
      refine .bind (derived progresses (by simp [isExpr, Expr.operands])) ?_
      intro tail between' progresses' isTail
      exact progresses'.evaluating.builds_above rfl (isHead.fills progresses'.filling) isTail
  | not lang =>
      simp only [derivativeStep, builds_get, show state.get id = _ from isExpr]
      refine .bind (derived atOnce (by simp [isExpr, Expr.operands])) ?_
      intro head between progresses isHead
      exact progresses.evaluating.builds_push (by simpa [Expr.operands] using isHead)
  | plus lang =>
      have member : lang ∈ (state.arena.get id).operands := by simp [isExpr, Expr.operands]
      simp only [derivativeStep, builds_get, show state.get id = _ from isExpr]
      refine .bind (derived atOnce member) ?_
      intro head between progresses isHead
      have isLang := (unfoldable.operand wellFormed member).fills progresses.filling
      refine .bind (progresses.evaluating.builds_push (e := .star lang)
        (by simpa [Expr.operands] using isLang)) ?_
      intro star between' progresses' isStar
      exact progresses'.evaluating.builds_above rfl (isHead.fills progresses'.filling) isStar
  | star lang =>
      simp only [derivativeStep, builds_get, show state.get id = _ from isExpr]
      refine .bind (derived atOnce (by simp [isExpr, Expr.operands])) ?_
      intro head between progresses isHead
      exact progresses.evaluating.builds_above rfl isHead (unfoldable.fills progresses.filling)

end Steps

theorem derivation_lightens : Lightens Tables.derivatives
    (fun f tables => { tables with derivatives := f tables.derivatives }) derivativeStep
    Derivation.lang where
  isField := ⟨fun _ _ => rfl, fun _ _ _ => rfl, fun _ => rfl⟩
  unfolded _ unfolded := { unfolded with wellFormed := unfolded.wellFormed }
  step_builds evaluating unfolds below := builds_derivativeStep evaluating unfolds below

theorem keepsUnfolded_derivative (kept : DerivativesKept state)
    (inside : id.number < state.arena.size) : state.KeepsUnfolded (computeDerivative id c) := by
  refine .of_imp fun unfolded => ?_
  unfold computeDerivative
  rw [ensures_bind, ensures_get]
  exact ensures_unfolded derivation_lightens unfolded kept.idle kept.singlePass
    (fun settled => (kept.settled_lt settled).2) (unfolded.wellFormed.resolve_lt inside) _

end Grammar

end Residual
