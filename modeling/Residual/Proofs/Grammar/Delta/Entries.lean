import Residual.Proofs.Arena.Closed
import Residual.Proofs.Grammar.Nullability

/-!
# What deltas tell

A delta is made of `ε` and `∅` alone, by unions and concatenations.

The delta of an expression has the empty string only if the expression has it: an operand whose
delta is being made is answered with `∅`, which says too little and never too much.

A delta is made in one pass, and nothing is asked again.  So it can miss an empty string where two
different expressions that have it depend on each other.  Nowhere else: an expression that depends
on itself alone has the empty string without its own help.

No operand of a closed expression has a delta that is being made, so that the tree of its delta comes
from its own tree.
-/

set_option autoImplicit false

namespace Residual

open Memo Interpretation Relation

namespace Tree

/-- The truth value that a tree of `ε` and `∅` amounts to. -/
def told : Tree → Bool :=
  recurse fun
    | .empty => true
    | .alt (_, x) (_, y) => x || y
    | .cat (_, x) (_, y) => x && y
    | _ => false

/-- The delta of an operator, given the deltas of its operands. -/
def deltaStep : Expr Tree → Tree
  | .alt left right => node (.alt left right)
  | .cat first second => node (.cat first second)
  | .not lang => if lang.told then node .nil else node .empty
  | .plus lang => lang
  | .rep _ (.finite 0) | .rep _ .infinite => node .empty
  | .rep lang _ => lang
  | .empty | .opt _ | .star _ => node .empty
  | .any | .char _ | .nil | .range .. | .token _ => node .nil

/-- The tree of the delta. -/
def delta : Tree → Tree :=
  recurse fun e => deltaStep (e.map Prod.snd)

theorem delta_node (e : Expr Tree) : (node e).delta = deltaStep (e.map delta) := by
  cases e <;> rfl

end Tree

namespace Arena

variable {arena before after : Arena} {id delta x y : ExprId} {told told' : Bool}
  {lang : Language Char}

/-- No `.` can be reached.  The delta of `.` does not have the empty string that `.` has. -/
def Dotless (arena : Arena) (root : ExprId) : Prop :=
  arena.Throughout root fun operator => operator ≠ .any

/-- Neither `.` nor a complement can be reached. -/
def Plain (arena : Arena) (root : ExprId) : Prop :=
  arena.Throughout root fun operator => operator ≠ .any ∧ operator ≠ .not ()

/-- Whether the first expression has the empty string is decided by asking for the second one. -/
def Consults (arena : Arena) (id other : ExprId) : Prop :=
  (arena.nullabilityEquation id).Needs other

/-- No two different expressions that have the empty string depend on each other for it. -/
def Untangled (arena : Arena) (root : ExprId) : Prop :=
  ∀ x y, ReflTransGen arena.Consults (arena.resolve root) x →
    TransGen arena.Consults x y → TransGen arena.Consults y x →
    [] ∈ words.least arena x → [] ∈ words.least arena y → x = y

theorem Consults.lt_size (consults : arena.Consults x y) : x.number < arena.size := by
  by_contra outside
  have noSlot : arena.slot? x = none := by
    unfold slot?
    exact Array.getElem?_eq_none (Nat.le_of_not_lt outside)
  have isNil : arena.get x = .nil := by
    unfold Arena.get
    rw [resolve_of_final (by simp [noSlot]), noSlot]
  unfold Consults nullabilityEquation at consults
  rw [isNil] at consults
  cases consults

theorem Consults.extends (consults : before.Consults x y) (extending : before.Extends after)
    (wellFormed : before.WellFormed) : after.Consults x y := by
  unfold Consults
  rw [← nullabilityEquation_extends extending wellFormed consults.lt_size]
  exact consults

theorem Plain.dotless (plain : arena.Plain id) : arena.Dotless id :=
  fun x reaches => (plain x reaches).1

theorem Plain.complementFree (plain : arena.Plain id) : arena.ComplementFree id :=
  fun x reaches => (plain x reaches).2

section WellFormed

variable (wellFormed : arena.WellFormed)

include wellFormed

theorem Consults.child (consults : arena.Consults x y) : arena.Child x y :=
  (Reading.Needs.asked consults (nullabilityEquation_asks wellFormed)).1.2

theorem throughout_of_consults {kind : Expr Unit → Prop} (throughout : arena.Throughout x kind)
    (consults : arena.Consults x y) : arena.Throughout y kind := by
  obtain ⟨o, member, rfl⟩ := mem_operands_iff.mp (consults.child wellFormed)
  exact wellFormed.throughout_resolve.mpr ((wellFormed.throughout_iff.mp throughout).2 o member)

theorem Untangled.of_consults (untangled : arena.Untangled x) (resolved : arena.resolve x = x)
    (consults : arena.Consults x y) : arena.Untangled y := by
  obtain ⟨o, _, rfl⟩ := mem_operands_iff.mp (consults.child wellFormed)
  intro first second path
  rw [wellFormed.resolve_resolve] at path
  exact untangled first second (.head (resolved.symm ▸ consults) path)

theorem untangled_resolve : arena.Untangled (arena.resolve id) ↔ arena.Untangled id := by
  unfold Untangled
  rw [wellFormed.resolve_resolve]

/-- An expression has the empty string without its own help. -/
theorem nullable_without_itself (free : arena.ComplementFree id) (resolved : arena.resolve id = id)
    (member : [] ∈ words.least arena id) :
    ((arena.get id).map fun o => [] ∈ words.least arena o ∧ arena.resolve o ≠ id).nullable := by
  have found : ∃ steps, id ∈ arena.nullableWithin steps :=
    ⟨_, nullableWithin_of_nil_mem_least wellFormed le_rfl member⟩
  classical
  -- as long as it is not found, it is of no help
  obtain ⟨steps, first⟩ : ∃ steps, Nat.find found = steps + 1 :=
    Nat.exists_eq_succ_of_ne_zero fun isZero => by
      have member := Nat.find_spec found
      rw [isZero] at member
      exact member
  have member := Nat.find_spec found
  rw [first, nullableWithin_succ] at member
  obtain ⟨_, here, nullable⟩ := member
  refine Expr.nullable_mono here (fun o _ known => ⟨?_, ?_⟩) nullable
  · exact nil_mem_least_of_nullableWithin wellFormed known
  · rintro rfl
    exact Nat.find_min found (first ▸ Nat.lt_succ_self steps)
      (nullableWithin_resolve wellFormed known)

end WellFormed

/-! ## Truth values of deltas -/

/-- What is told of an expression is never too much, and it is not too little if the expressions
below are untangled.  Without cycles below it is right, complements included. -/
structure Supports (arena : Arena) (id : ExprId) (told : Bool) : Prop where
  least : arena.Plain id → (told = true → [] ∈ words.least arena id) ∧
    (arena.Untangled id → [] ∈ words.least arena id → told = true)
  structural : arena.Dotless id → ∀ lang, arena.Denotes id lang → (told = true ↔ [] ∈ lang)

section Answers

variable (wellFormed : arena.WellFormed) (resolved : arena.resolve id = id)
  (answers : (arena.nullabilityEquation id).Answers (fun other told =>
    arena.Supports other told ∨ told = false ∧ ReflTransGen arena.Consults other id) told)

include wellFormed answers

/-- Who is asked is below, and still needed by the one who asks if it is being made. -/
theorem answers_consulted : (arena.nullabilityEquation id).Answers (fun other told =>
    arena.Consults id other ∧
      (arena.Supports other told ∨ told = false ∧ ReflTransGen arena.Consults other id)) told :=
  answers.mono_of_asks (nullabilityEquation_asks wellFormed)
    fun _ _ asked holds => ⟨asked.1.1, holds⟩

include resolved in
theorem least_of_answers (plain : arena.Plain id) :
    (told = true → [] ∈ words.least arena id) ∧
      (arena.Untangled id → [] ∈ words.least arena id → told = true) := by
  obtain ⟨here, below⟩ := wellFormed.complementFree_iff.mp plain.complementFree
  have answers := answers_consulted wellFormed answers
  refine ⟨fun isTrue => ?_, fun untangled member => ?_⟩
  · rw [wellFormed.least_words here, Expr.nil_mem_language]
    refine nullabilityEquation_related (fun value condition => value = true → condition)
      (fun _ => trivial) (by simp) (by grind) (by grind) (fun isNot => absurd isNot here) answers
      (fun o _ value holds isTrue => ?_) isTrue
    obtain ⟨consults, supports | ⟨isFalse, _⟩⟩ := holds
    · rw [← words.least_resolve wellFormed]
      exact (supports.least (throughout_of_consults wellFormed plain consults)).1 isTrue
    · cases isTrue.symm.trans isFalse
  · refine eq_true_of_answers answers here ?_
      (nullable_without_itself wellFormed plain.complementFree resolved member)
    rintro o _ value ⟨consults, known⟩ ⟨member', other⟩
    rw [← words.least_resolve wellFormed] at member'
    rcases known with supports | ⟨_, path⟩
    · exact (supports.least (throughout_of_consults wellFormed plain consults)).2
        (untangled.of_consults wellFormed resolved consults) member'
    · rcases reflTransGen_iff_eq_or_transGen.mp path with same | path
      · exact absurd same.symm other
      · refine absurd ?_ other
        refine (untangled id _ ?_ (.single consults) path member member').symm
        rw [resolved]

include resolved in
/-- Where nothing depends on itself nothing is asked for while its delta is being made. -/
theorem structural_of_answers (dotless : arena.Dotless id) (denotes : arena.Denotes id lang) :
    told = true ↔ [] ∈ lang := by
  have acyclic := wellFormed.acyclic_of_denotes denotes
  cases denotes with
  | intro L below =>
      apply eq_true_iff_of_answers (answers_consulted wellFormed answers)
      rintro o member value ⟨consults, supports | ⟨_, path⟩⟩
      · have dotless := throughout_of_consults wellFormed dotless consults
        have means : arena.Means .structural o (L o) := below o member
        exact supports.structural dotless _ (wellFormed.means_resolve.mpr means)
      · have child := fun x y (consults : arena.Consults x y) => consults.child wellFormed
        have cycle : TransGen arena.Child id id :=
          .head' (consults.child wellFormed) (ReflTransGen.mono child _ _ path)
        have reaches := arena.reaches_self id
        rw [resolved] at reaches
        exact absurd cycle (acyclic id reaches)

end Answers

/-- The answers from values that are told of the operands.  Operands whose deltas are being made
are answered with `false`. -/
theorem supports_of_answers (wellFormed : arena.WellFormed) (resolved : arena.resolve id = id)
    (answers : arena.Dotless id → (arena.nullabilityEquation id).Answers (fun other told =>
      arena.Supports other told ∨ told = false ∧ ReflTransGen arena.Consults other id) told) :
    arena.Supports id told where
  least plain := least_of_answers wellFormed resolved (answers plain.dotless) plain
  structural dotless _ := structural_of_answers wellFormed resolved (answers dotless) dotless

theorem Supports.extends (supports : before.Supports id told) (extending : before.Extends after)
    (wellFormed : before.WellFormed) (wellFormed' : after.WellFormed)
    (inside : id.number < before.size) : after.Supports id told where
  least plain := by
    have plain := (extending.throughout_iff wellFormed wellFormed' inside (by simp)).mp plain
    obtain ⟨sound, complete⟩ := supports.least plain
    rw [words.least_extends extending wellFormed inside]
    refine ⟨sound, fun untangled => complete fun x y path there back => ?_⟩
    have onward := fun x y (consults : before.Consults x y) => consults.extends extending wellFormed
    rw [← extending.resolve wellFormed inside] at path
    have inside : ∀ {x y}, TransGen before.Consults x y → x.number < before.size := fun path => by
      obtain ⟨_, consults, _⟩ := TransGen.head'_iff.mp path
      exact consults.lt_size
    rw [← words.least_extends extending wellFormed (inside there),
      ← words.least_extends extending wellFormed (inside back)]
    exact untangled x y (ReflTransGen.mono onward _ _ path) (TransGen.mono onward _ _ there)
      (TransGen.mono onward _ _ back)
  structural dotless lang denotes := by
    have dotless := (extending.throughout_iff wellFormed wellFormed' inside (by simp)).mp dotless
    have means : after.Means .structural id lang := denotes
    have denotes := (extending.means_iff wellFormed wellFormed' inside).mp means
    exact supports.structural dotless lang denotes

/-- The expression is made of `ε` and `∅` by unions and concatenations, and the truth value tells
which of them it amounts to. -/
inductive Tells (arena : Arena) : ExprId → Bool → Prop where
  | empty : Tells arena .empty true
  | nil : Tells arena .nil false
  | alt {id x y : ExprId} {told told' : Bool} : arena.slot? id = some (.expr (.alt x y)) →
      Tells arena x told → Tells arena y told' → Tells arena id (told || told')
  | cat {id x y : ExprId} {told told' : Bool} : arena.slot? id = some (.expr (.cat x y)) →
      Tells arena x told → Tells arena y told' → Tells arena id (told && told')

namespace Tells

theorem lt_size (tells : arena.Tells id told) (wellFormed : arena.WellFormed) :
    id.number < arena.size := by
  cases tells with
  | empty => exact wellFormed.empty_lt_size
  | nil => exact wellFormed.nil_lt_size
  | alt found _ _ | cat found _ _ => exact lt_size_of_slot? found

theorem «extends» (tells : before.Tells id told) (extending : before.Extends after) :
    after.Tells id told := by
  induction tells with
  | empty => exact .empty
  | nil => exact .nil
  | alt found _ _ first second =>
      exact .alt ((extending _ (lt_size_of_slot? found)).trans found) first second
  | cat found _ _ first second =>
      exact .cat ((extending _ (lt_size_of_slot? found)).trans found) first second

/-- Two languages of two operands. -/
theorem exists_pair {K L : Language Char} (denotes : arena.Denotes x K)
    (denotes' : arena.Denotes y L) : ∃ langs : ExprId → Language Char,
      langs x = K ∧ langs y = L ∧ ∀ o ∈ [x, y], arena.Denotes o (langs o) := by
  have denoted : ∀ o ∈ [x, y], ∃ lang, arena.Denotes o lang := by
    simpa using ⟨⟨K, denotes⟩, L, denotes'⟩
  obtain ⟨langs, below⟩ := exists_denoted denoted
  exact ⟨langs, (below x (by simp)).unique denotes, (below y (by simp)).unique denotes', below⟩

/-- It has a language by structural recursion, with the empty string or without. -/
theorem denotes (tells : arena.Tells id told) (wellFormed : arena.WellFormed) :
    ∃ lang, arena.Denotes id lang ∧ (told = true ↔ [] ∈ lang) := by
  induction tells with
  | empty => exact ⟨1, wellFormed.means_empty .structural, by simp⟩
  | nil => exact ⟨0, wellFormed.means_nil .structural, by simp⟩
  | alt found _ _ first second | cat found _ _ first second =>
      obtain ⟨K, denotes, exact⟩ := first
      obtain ⟨L, denotes', exact'⟩ := second
      obtain ⟨langs, isFirst, isSecond, below⟩ := exists_pair denotes denotes'
      refine ⟨_, .of_stands (stands_of_expr found) below, ?_⟩
      rw [Expr.nil_mem_language]
      simp [Expr.map, Expr.nullable, isFirst, isSecond, ← exact, ← exact']

theorem closed (tells : arena.Tells id told) (wellFormed : arena.WellFormed) :
    arena.Closed id := by
  induction tells with
  | empty => exact wellFormed.closed_empty
  | nil => exact wellFormed.closed_of_expr wellFormed.nil (by simp [Expr.operands])
  | alt found _ _ first second | cat found _ _ first second =>
      exact wellFormed.closed_of_expr found (by simpa [Expr.operands] using ⟨first, second⟩)

theorem tree_extends (tells : before.Tells id told) (extending : before.Extends after)
    (wellFormed : before.WellFormed) (wellFormed' : after.WellFormed) :
    after.tree id = before.tree id :=
  (tells.closed wellFormed).tree_grows extending.grows wellFormed'

/-- The truth value is that of the tree. -/
theorem told_tree (tells : arena.Tells id told) (wellFormed : arena.WellFormed) :
    (arena.tree id).told = told := by
  have isClosed := tells.closed wellFormed
  induction tells with
  | empty => rw [isClosed.tree_of_expr wellFormed.empty]; rfl
  | nil => rw [isClosed.tree_of_expr wellFormed.nil]; rfl
  | alt found tells tells' first second =>
      rw [isClosed.tree_of_expr found, ← first (tells.closed wellFormed),
        ← second (tells'.closed wellFormed)]
      rfl
  | cat found tells tells' first second =>
      rw [isClosed.tree_of_expr found, ← first (tells.closed wellFormed),
        ← second (tells'.closed wellFormed)]
      rfl

end Tells

/-! ## Deltas -/

/-- The tree of a delta of a closed expression comes from that of its operands. -/
theorem Closed.delta_tree (closed : arena.Closed id) : (arena.tree id).delta =
    Tree.deltaStep ((arena.get id).map fun o => (arena.tree o).delta) := by
  rw [closed.tree_of_get? closed.get?, Tree.delta_node, Expr.map_map]

/-- The truth value and the tree of a delta of the expression. -/
structure Describes (arena : Arena) (id : ExprId) (told : Bool) (tree : Tree) : Prop where
  supports : arena.Supports id told
  tree : arena.Closed id → tree = (arena.tree id).delta

/-- The second number is a delta, in the later arena, of the first one in the earlier arena. -/
structure IsDelta (earlier later : Arena) (id delta : ExprId) : Prop where
  inside : id.number < earlier.size
  tells : ∃ told, later.Tells delta told ∧ earlier.Supports id told
  tree : earlier.Closed id → later.tree delta = (earlier.tree id).delta

theorem IsDelta.extends {earlier : Arena} (isDelta : earlier.IsDelta before id delta)
    (extending : before.Extends after) (wellFormed : before.WellFormed)
    (wellFormed' : after.WellFormed) : earlier.IsDelta after id delta where
  inside := isDelta.inside
  tells := by
    obtain ⟨told, tells, supports⟩ := isDelta.tells
    exact ⟨told, tells.extends extending, supports⟩
  tree closed := by
    obtain ⟨told, tells, _⟩ := isDelta.tells
    rw [tells.tree_extends extending wellFormed wellFormed']
    exact isDelta.tree closed

theorem IsDelta.later (isDelta : before.IsDelta after id delta) (extending : before.Extends after)
    (wellFormed : before.WellFormed) (wellFormed' : after.WellFormed) :
    after.IsDelta after id delta where
  inside := extending.grows.lt_size isDelta.inside
  tells := by
    obtain ⟨told, tells, supports⟩ := isDelta.tells
    exact ⟨told, tells, supports.extends extending wellFormed wellFormed' isDelta.inside⟩
  tree closed := by
    have closed := closed.of_extends extending wellFormed isDelta.inside
    rw [closed.tree_grows extending.grows wellFormed']
    exact isDelta.tree closed

end Arena

end Residual
