import Residual.Proofs.Grammar.NormalForm.Preservation
import Residual.Proofs.Grammar.NormalForm.Stability
import Residual.Proofs.Memo.Irrelevance

/-!
# The limit of rounds

How many rounds a canonicalization may take is looked at when it begins, and by nothing that it does.
So the rounds are the same for every limit, and an orderly expression becomes canonical without a
warning if the limit is not too low, also where it is recursive.
-/

set_option autoImplicit false

namespace Residual

open Memo

/-! ## Grammars that are orderly throughout -/

namespace Expr

instance {A : Type} (e : Expr A) : Decidable e.IsTight :=
  match e with
  | .alt _ _ | .cat _ _ | .not _ => inferInstanceAs (Decidable False)
  | .rep _ count => inferInstanceAs (Decidable (count ≠ .finite 1))
  | .any | .empty | .nil | .char _ | .range _ _ | .token _ | .opt _ | .plus _ | .star _ =>
      inferInstanceAs (Decidable True)

end Expr

namespace Arena

variable {arena : Arena} {root id : ExprId}

/-- Looks for a letter in the operands of sequences, down to some depth. -/
def findsLetter (arena : Arena) (id : ExprId) : (depth : Nat) → Bool
  | 0 => false
  | depth + 1 =>
      match arena.get id with
      | .cat first second => arena.findsLetter first depth || arena.findsLetter second depth
      | .any | .nil | .char _ | .range _ _ | .token _ => true
      | _ => false

/-- If the expression is a union, then it begins with an operator that has no operands, or it ends with
one and begins with something firm. -/
def isOrdered (arena : Arena) (id : ExprId) : Bool :=
  match arena.get id with
  | .alt left right => (arena.get left).operands.isEmpty ||
      ((arena.get left).IsTight || arena.findsLetter left arena.size) &&
        (arena.get right).operands.isEmpty
  | _ => true

namespace WellFormed

variable (wellFormed : arena.WellFormed)
  (bound : ∀ number < arena.size, arena.isUnbound ⟨number⟩ = false)

include wellFormed bound

theorem stands_get (inside : id.number < arena.size) : arena.Stands id (arena.get id) := by
  have isBound := bound (arena.resolve id).number (wellFormed.resolve_lt inside)
  obtain ⟨e, stands⟩ := (wellFormed.stands_or_unbound inside).resolve_right fun unbound =>
    Bool.false_ne_true (isBound.symm.trans (isUnbound_iff.mpr unbound))
  rwa [get_of_stands stands]

theorem solid_of_findsLetter {depth : Nat} (inside : id.number < arena.size)
    (finds : arena.findsLetter id depth = true) : arena.Solid id := by
  induction depth generalizing id with
  | zero => cases finds
  | succ depth inductionHypothesis =>
      have stands := wellFormed.stands_get bound inside
      unfold findsLetter at finds
      split at finds
      · rename_i first second isCat
        rw [isCat] at stands
        have operand_lt := wellFormed.operand_lt stands
        rcases Bool.or_eq_true_iff.mp finds with finds | finds
        · exact .first stands (inductionHypothesis (operand_lt _ (by simp [Expr.operands])) finds)
        · exact .second stands (inductionHypothesis (operand_lt _ (by simp [Expr.operands])) finds)
      case h_7 => cases finds
      all_goals
        rename_i isLetter
        rw [isLetter] at stands
        exact .letter stands ⟨rfl, nofun⟩

theorem orderly_of_forall (ordered : ∀ number < arena.size, arena.isOrdered ⟨number⟩ = true) :
    arena.Orderly root where
  defined := defined_of_forall bound
  heads {id left right} _ found _ := by
    have left_lt := wellFormed.operand_lt found left (by simp [Expr.operands])
    have right_lt := wellFormed.operand_lt found right (by simp [Expr.operands])
    have isOrdered := ordered id.number (lt_size_of_slot? found)
    unfold Arena.isOrdered at isOrdered
    rw [get_of_stands (stands_of_expr found)] at isOrdered
    simp only [Bool.or_eq_true, Bool.and_eq_true, List.isEmpty_iff, decide_eq_true_eq] at isOrdered
    have isLeaf : ∀ {o : ExprId}, o.number < arena.size → (arena.get o).operands = [] →
        arena.IsLeaf o := fun inside isLeaf => ⟨_, wellFormed.stands_get bound inside, isLeaf⟩
    refine isOrdered.imp (isLeaf left_lt) (.imp (.imp ?_ ?_) (isLeaf right_lt))
    · exact fun isTight => ⟨_, wellFormed.stands_get bound left_lt, isTight⟩
    · exact wellFormed.solid_of_findsLetter bound left_lt

end WellFormed

end Arena

/-! ## Grammars with another limit -/

namespace Grammar

variable {grammar : Grammar} {id : ExprId} {maxPasses : Nat}

/-- The same grammar, where a canonicalization may take another number of rounds. -/
def withRounds (maxPasses : Nat) (grammar : Grammar) : Grammar :=
  { grammar with config.simplify.maxPasses := maxPasses }

theorem disregards_analysis {Key Value : Type} [BEq Key] [Hashable Key]
    (table : Tables → Table Key Value)
    (modifyTable : (Table Key Value → Table Key Value) → Tables → Tables) (bottom : Value)
    (equation : Arena → Key → Reading Key Value Value) :
    (analysis table modifyTable bottom equation).Disregards (withRounds maxPasses) :=
  .ofReadings (fun _ => rfl) (fun _ _ => rfl) (fun _ => rfl) (fun _ => rfl) fun _ _ => rfl

/-- Looking at the arena. -/
theorem ignores_look {Answer Result : Type} (see : Arena → Answer)
    {next : Answer → Eval Grammar Result}
    (rest : ∀ answer, Ignores (withRounds maxPasses) (next answer)) :
    Ignores (withRounds maxPasses) (get >>= fun grammar => next (see grammar.arena)) :=
  ignores_get_bind (fun _ => rfl) fun grammar => rest (see grammar.arena)

theorem ignores_computeEqual (x y : ExprId) :
    Ignores (withRounds maxPasses) (computeEqual x y) :=
  ignores_get_bind (fun _ => rfl) fun _ => (disregards_analysis ..).ignores_solve _ _

theorem simplificationParts_ignores :
    SimplificationParts (Ignores (withRounds maxPasses)) where
  pure := ignores_pure
  bind := Ignores.bind
  look := ignores_look
  push _ := ignores_lift _ fun _ => rfl
  height _ := ignores_get_bind (fun _ => rfl) fun _ => (disregards_analysis ..).ignores_solve _ _
  equal := ignores_computeEqual

theorem disregards_simplifications : simplifications.Disregards (withRounds maxPasses) where
  table _ := rfl
  modifyTable _ _ := rfl
  noteRepeated _ := rfl
  noteExhausted _ _ := rfl
  bottom _ := ignores_lift reserve fun _ => rfl
  step := simplificationParts_ignores.simplifyStep
  finish _ link value := by
    have binds : Ignores (withRounds maxPasses) (liftM (bindLink link value) : Eval Grammar Bool) :=
      ignores_lift _ fun _ => rfl
    exact binds.bind fun _ => ignores_pure value

theorem ignores_computeSimplified (id : ExprId) :
    Ignores (withRounds maxPasses) (computeSimplified id) :=
  ignores_get_bind (fun _ => rfl) fun _ => disregards_simplifications.ignores_solve _ _

/-- The rounds are the same for every limit. -/
theorem indifferent_simplifyWithin (id : ExprId) (done passes : Nat) :
    Indifferent (withRounds maxPasses) (simplifyWithin id done passes) := by
  induction passes generalizing id done with
  | zero => exact indifferent_pure _
  | succ passes inductionHypothesis =>
      refine ((ignores_computeSimplified id).settle id).bind fun next => ?_
      refine ((ignores_computeEqual id next).settle true).bind fun same => ?_
      split
      · exact indifferent_pure _
      · exact inductionHypothesis next (done + 1)

theorem Coherent.withRounds (coherent : grammar.Coherent) :
    (grammar.withRounds maxPasses).Coherent where
  wellFormed := coherent.wellFormed
  fault := coherent.fault
  nullability := coherent.nullability
  equalities := coherent.equalities
  heights := coherent.heights
  renderings := coherent.renderings
  simplified := coherent.simplified.extends rfl (.refl _) coherent.wellFormed coherent.wellFormed
    fun truncated => truncated
  derivatives := coherent.derivatives.extends rfl (.refl _) coherent.wellFormed coherent.wellFormed
    fun truncated => truncated
  deltas := coherent.deltas

/-- Whatever was asked before, an expression without undefined references becomes canonical without a
warning if enough rounds are allowed, also where it is recursive, if each union above a cycle has an
operand without operands, and if the other one does not come before it or is firm. -/
theorem canonicalizes_of_orderly (reachable : grammar.Reachable)
    (inside : id.number < grammar.arena.size) (orderly : grammar.arena.Orderly id) :
    ∃ rounds, ∀ maxPasses ≥ rounds, (grammar.withRounds maxPasses).Canonicalizes id ∧
      (grammar.withRounds maxPasses).Quiet (canonicalize id (grammar.withRounds maxPasses)).2 := by
  have coherent := reachable.coherent
  obtain ⟨config, evolves⟩ := reachable
  have grows := (Coherent.ofConfig config).evolves evolves
  have position : Position 0 (id, grammar) :=
    { coherent := coherent
      limited := Nat.zero_le _
      normal := grows.normal 0 (Nat.zero_le _) (.of_empty rfl ⟨_, rfl⟩)
      distinguishes := grows.distinguishes 0 (Nat.zero_le _) (.empty _ _ _)
      inside := inside
      orderly := orderly.of_reaches coherent.wellFormed (grammar.arena.reaches_self id) }
  obtain ⟨rounds, stabilizes⟩ := position.stabilizes
  refine ⟨rounds, fun maxPasses enough => ?_⟩
  have canonicalizes : (grammar.withRounds maxPasses).Canonicalizes id := by
    have stable := stabilizes maxPasses enough
    unfold Canonicalizes
    rwa [indifferent_simplifyWithin]
  have coherent : (grammar.withRounds maxPasses).Coherent := coherent.withRounds
  exact ⟨canonicalizes, (coherent.canonicalize_quiet inside).1 canonicalizes⟩

/-- The grammar of the rule `S = S ( S ) | ε`, whose reference is the expression with the number
three. -/
def balancedParens : Grammar :=
  (recursive (fun link => do alt (← Grammar.seq [↑link, '(', ↑link, ')']) ExprId.empty) (ofConfig {})).2

theorem balancedParens_reachable : balancedParens.Reachable := by
  refine ⟨{}, .call (.tie ⟨3⟩ ⟨9⟩) (.call (.alt (.expr ⟨8⟩) (.expr .empty))
    (.call (.seq [.expr ⟨3⟩, .char '(', .expr ⟨3⟩, .char ')']) (.call .declare .refl ?_) ?_) ?_) ?_⟩
  · exact nofun
  · decide
  · decide
  · decide

theorem canonicalizes_of_orderly_balancedParens : ∃ rounds, ∀ maxPasses ≥ rounds,
    (balancedParens.withRounds maxPasses).Canonicalizes ⟨3⟩ ∧ (balancedParens.withRounds
      maxPasses).Quiet (canonicalize ⟨3⟩ (balancedParens.withRounds maxPasses)).2 :=
  canonicalizes_of_orderly balancedParens_reachable (by decide)
    (balancedParens_reachable.coherent.wellFormed.orderly_of_forall (by decide) (by decide))

end Grammar

end Residual
