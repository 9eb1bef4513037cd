import Residual.Proofs.Expr.Settling
import Residual.Proofs.Expr.Tree

/-!
# Normal forms of trees

What one round of simplification makes of a tree, and the trees to which no rule applies.  They are
the same as the trees that stay as they are in a round.
-/

set_option autoImplicit false

namespace Residual

namespace Tree

open Rewriting

variable {tree left right l r l' r' t : Tree} {e : Expr Tree}

/-- How much there is of a tree. -/
def mass : Tree → Nat :=
  recurse fun e => (e.map Prod.snd).mass

theorem mass_eq (tree : Tree) : tree.mass = (tree.root.map mass).mass := by
  rcases tree with link | e
  · rfl
  · cases e <;> rfl

theorem mass_node (e : Expr Tree) : (node e).mass = (e.map mass).mass :=
  mass_eq (node e)

theorem height_lt {o : Tree} (member : o ∈ tree.root.operands) : o.height < tree.height := by
  rw [height_eq tree, Nat.lt_succ_iff, List.foldl_max]
  exact le_max_of_le_right (List.le_max?_getD_of_mem (List.mem_map_of_mem member))

/-! ## One round -/

/-- What the rules make of a concatenation of simplified trees. -/
def contractCat : Tree → Tree → Option Tree
  | node .nil, _ | _, node .nil => some (node .nil)
  | node .empty, y => some y
  | x, node .empty => some x
  | _, _ => none

/-- What the rules make of an operator with simplified operands, unless it is a union.  Without a
rule there is no answer. -/
def contract : Expr Tree → Option Tree
  | .cat x y => contractCat x y
  | .not (node (.not inner)) => some inner
  | .opt (node .nil) | .opt (node .empty) => some (node .empty)
  | .plus (node .nil) => some (node .nil)
  | .plus (node .empty) => some (node .empty)
  | .star (node .nil) | .star (node .empty) => some (node .empty)
  | .star (node (.star inner)) => some (node (.star inner))
  | .range low high => if low = high then some (node (.char low)) else none
  | .rep _ (.finite 0) => some (node .empty)
  | .rep lang (.finite 1) => some lang
  | .rep lang .infinite => some (node (.star lang))
  | _ => none

/-- A union on the left is turned around. -/
def turn : Tree → Tree → Tree × Tree
  | node (.alt inner rest), right => (inner, node (.alt rest right))
  | left, right => (left, right)

/-- The lower one of two trees and the higher one. -/
def order (left right : Tree) : Tree × Tree :=
  if right.height < left.height then (right, left) else (left, right)

open Classical in
/-- The union of two trees in their final order. -/
noncomputable def join (left right : Tree) : Tree :=
  if left = right ∨ right = node .nil then left
  else if left = node .nil then right
  else node (.alt left right)

/-- The union of two simplified trees. -/
noncomputable def unite (left right : Tree) : Tree :=
  let (l, r) := turn left right
  let (l, r) := order l r
  join l r

/-- An operator with simplified operands, unless it is a union. -/
def reduce (e : Expr Tree) : Tree :=
  (contract e).getD (node e)

/-- What a round makes of a tree. -/
noncomputable def simplify : Tree → Tree
  | undefined link => undefined link
  | node .any => reduce .any
  | node .empty => reduce .empty
  | node .nil => reduce .nil
  | node (.char c) => reduce (.char c)
  | node (.range low high) => reduce (.range low high)
  | node (.token text) => reduce (.token text)
  | node (.alt left right) => unite left.simplify right.simplify
  | node (.cat first second) => reduce (.cat first.simplify second.simplify)
  | node (.not lang) => reduce (.not lang.simplify)
  | node (.opt lang) => reduce (.opt lang.simplify)
  | node (.plus lang) => reduce (.plus lang.simplify)
  | node (.star lang) => reduce (.star lang.simplify)
  | node (.rep lang count) => reduce (.rep lang.simplify count)

theorem simplify_alt (left right : Tree) :
    simplify (node (.alt left right)) = unite left.simplify right.simplify := by
  rw [simplify]

theorem simplify_node (other : ∀ left right, e ≠ .alt left right) :
    simplify (node e) = reduce (e.map simplify) := by
  cases e with
  | alt left right => exact absurd rfl (other left right)
  | _ => simp only [simplify, Expr.map]

theorem contractCat_nil_left (isNil : left = node .nil) : contractCat left right = some left := by
  subst isNil
  simp [contractCat]

theorem contractCat_nil_right (isNil : right = node .nil) :
    contractCat left right = some right := by
  subst isNil
  unfold contractCat
  split <;> simp_all

theorem contractCat_empty_left (isEmpty : left = node .empty) (known : right ≠ node .nil) :
    contractCat left right = some right := by
  subst isEmpty
  unfold contractCat
  split <;> simp_all

theorem contractCat_empty_right (isEmpty : right = node .empty) (known : left ≠ node .nil) :
    contractCat left right = some left := by
  subst isEmpty
  unfold contractCat
  split <;> simp_all

theorem contractCat_eq_none_iff : contractCat left right = none ↔
    (left ≠ node .nil ∧ right ≠ node .nil) ∧ left ≠ node .empty ∧ right ≠ node .empty := by
  unfold contractCat
  split
  all_goals simp_all

theorem mass_contractCat (contracts : contractCat left right = some t) :
    t.mass < left.mass + right.mass + 1 := by
  have heavy : 0 < left.mass := by
    rw [mass_eq]
    exact Expr.mass_pos _
  unfold contractCat at contracts
  split at contracts
  case h_5 => cases contracts
  all_goals
    cases contracts
    simp only [mass_node, Expr.map, Expr.mass] at heavy ⊢
    omega

/-- A rule takes something away. -/
theorem mass_contract (contracts : contract e = some t) : t.mass < (e.map mass).mass := by
  unfold contract at contracts
  split at contracts
  case h_1 => exact mass_contractCat contracts
  case h_10 =>
    split at contracts
    · cases contracts
      exact Nat.lt_succ_self 1
    · cases contracts
  case h_14 => cases contracts
  all_goals
    cases contracts
    simp only [mass_node, Expr.map, Expr.mass]
    omega

/-- Trees are rewritten by simplification, and all heights are known. -/
noncomputable def rewriting : Rewriting Tree where
  view := root
  mass := mass
  mass_eq := mass_eq
  height tree := some tree.height
  next := simplify
  Active _ := True

theorem single_iff : rewriting.Single tree ↔ ∀ left right, tree ≠ node (.alt left right) := by
  constructor
  · rintro single left right rfl
    exact single left right rfl
  · intro other left right isAlt
    rcases tree with link | e
    · cases isAlt
    · exact other left right (congrArg node isAlt)

theorem graded (tree : Tree) : rewriting.Graded tree := by
  rintro h isHeight o member
  cases isHeight
  exact ⟨_, rfl, height_lt member⟩

theorem turns (left right : Tree) :
    rewriting.Turns left right (turn left right).1 (turn left right).2 := by
  unfold turn
  split
  · exact .turned rfl rfl (graded _)
  · rename_i other
    exact .flat (single_iff.mpr other)

theorem orders (left right : Tree) :
    rewriting.Orders left right (order left right).1 (order left right).2 := by
  unfold order
  split
  · rename_i lower
    exact .swapped rfl rfl lower
  · rename_i notLower
    exact .kept rfl rfl (Nat.le_of_not_lt notLower)

/-- The union of two trees takes something away, or it is made of both of them. -/
theorem join_cases (left right : Tree) :
    ((left = right ∨ right = node .nil ∨ left = node .nil) ∧
        (join left right).mass < left.mass + right.mass + 1) ∨
      (left ≠ right ∧ right ≠ node .nil ∧ left ≠ node .nil) ∧
        join left right = node (.alt left right) := by
  unfold join
  split
  · rename_i same
    exact .inl ⟨same.imp_right .inl, by omega⟩
  · rename_i distinct
    obtain ⟨distinct, isSome⟩ := not_or.mp distinct
    split
    · rename_i isNil
      exact .inl ⟨.inr (.inr isNil), by omega⟩
    · rename_i isSome'
      exact .inr ⟨⟨distinct, isSome, isSome'⟩, rfl⟩

/-- A union is rearranged, unless something is taken away. -/
theorem unite_cases (left right : Tree) : ∃ l r l' r', rewriting.Turns left right l r ∧
    rewriting.Orders l r l' r' ∧ unite left right = join l' r' :=
  ⟨_, _, _, _, turns left right, orders _ _, rfl⟩

theorem lawful : rewriting.Lawful := by
  intro tree _
  rcases tree with link | e
  · exact .rebuild (fun _ _ isAlt => by cases isAlt) (fun _ _ => trivial) rfl fun _ => rfl
  by_cases isAlt : ∃ left right, e = .alt left right
  · obtain ⟨left, right, rfl⟩ := isAlt
    obtain ⟨l, r, l', r', turns, orders, united⟩ := unite_cases left.simplify right.simplify
    have isNext : rewriting.next (node (.alt left right)) = join l' r' :=
      (simplify_alt left right).trans united
    have same : l.mass + r.mass = left.simplify.mass + right.simplify.mass := turns.mass_eq
    have same' : l'.mass + r'.mass = l.mass + r.mass := orders.mass_eq
    rcases join_cases l' r' with ⟨_, less⟩ | ⟨_, joined⟩
    · refine .shrink (fun _ _ => trivial) ?_
      rw [isNext]
      change (join l' r').mass < left.simplify.mass + right.simplify.mass + 1
      omega
    · rw [joined] at isNext
      refine .unite rfl trivial trivial turns orders ?_ (.inr (graded _)) ?_
      · rw [isNext]
        rfl
      · rintro rfl rfl
        exact isNext
  · have other : ∀ left right, e ≠ .alt left right := fun left right same =>
      isAlt ⟨left, right, same⟩
    have isNext : rewriting.next (node e) = reduce (e.map simplify) := simplify_node other
    cases contracts : contract (e.map simplify) with
    | some t =>
        refine .shrink (fun _ _ => trivial) ?_
        have less := mass_contract contracts
        rw [Expr.map_map] at less
        rw [isNext, reduce, contracts]
        exact less
    | none =>
        rw [reduce, contracts] at isNext
        refine .rebuild (single_iff.mpr fun left right same => ?_) (fun _ _ => trivial) ?_ ?_
        · cases same
          exact other left right rfl
        · rw [isNext]
          rfl
        · intro fixed
          rw [isNext]
          exact congrArg node ((Expr.map_congr fixed).trans (Expr.map_id e))

/-! ## Irreducible trees -/

/-- A rule applies at the root. -/
inductive Redex : Expr Tree → Prop where
  | altNil (x : Tree) : Redex (.alt x (node .nil))
  | nilAlt (x : Tree) : Redex (.alt (node .nil) x)
  | altAlt (x y z : Tree) : Redex (.alt (node (.alt x y)) z)
  | altSelf (x : Tree) : Redex (.alt x x)
  | higher {x y : Tree} : y.height < x.height → Redex (.alt x y)
  | catNil (x : Tree) : Redex (.cat x (node .nil))
  | nilCat (x : Tree) : Redex (.cat (node .nil) x)
  | catEmpty (x : Tree) : Redex (.cat x (node .empty))
  | emptyCat (x : Tree) : Redex (.cat (node .empty) x)
  | notNot (x : Tree) : Redex (.not (node (.not x)))
  | optNil : Redex (.opt (node .nil))
  | optEmpty : Redex (.opt (node .empty))
  | plusNil : Redex (.plus (node .nil))
  | plusEmpty : Redex (.plus (node .empty))
  | starNil : Redex (.star (node .nil))
  | starEmpty : Redex (.star (node .empty))
  | starStar (x : Tree) : Redex (.star (node (.star x)))
  | single (c : Char) : Redex (.range c c)
  | never (x : Tree) : Redex (.rep x (.finite 0))
  | once (x : Tree) : Redex (.rep x (.finite 1))
  | unbounded (x : Tree) : Redex (.rep x .infinite)

/-- No rule applies anywhere in the tree. -/
inductive Irreducible : Tree → Prop where
  | undefined (link : ExprId) : Irreducible (undefined link)
  | node {e : Expr Tree} : ¬ Redex e → (∀ o ∈ e.operands, Irreducible o) → Irreducible (node e)

theorem redex_cat_iff : Redex (.cat left right) ↔ contractCat left right ≠ none := by
  rw [ne_eq, contractCat_eq_none_iff]
  constructor
  · intro redex
    cases redex
    all_goals simp
  · intro some
    by_contra free
    refine some ⟨⟨?_, ?_⟩, ?_, ?_⟩
    all_goals
      rintro rfl
      exact free (by constructor)

/-- The rules that are not about unions are those of a round. -/
theorem redex_iff (other : ∀ left right, e ≠ .alt left right) :
    Redex e ↔ contract e ≠ none := by
  by_cases isCat : ∃ left right, e = .cat left right
  · obtain ⟨left, right, rfl⟩ := isCat
    exact redex_cat_iff
  constructor
  · intro redex
    cases redex
    case altNil | nilAlt | altAlt | altSelf | higher => exact absurd rfl (other _ _)
    case catNil | nilCat | catEmpty | emptyCat => exact absurd ⟨_, _, rfl⟩ isCat
    all_goals simp [contract]
  · intro contracts
    unfold contract at contracts
    split at contracts
    case h_1 => exact absurd ⟨_, _, rfl⟩ isCat
    case h_10 =>
      split at contracts
      · rename_i same
        subst same
        exact .single _
      · exact absurd rfl contracts
    case h_14 => exact absurd rfl contracts
    all_goals constructor

/-- No rule applies to a union at its root. -/
structure Ordered (left right : Tree) : Prop where
  single : ∀ l r, left ≠ node (.alt l r)
  height_le : left.height ≤ right.height
  distinct : left ≠ right
  left_ne_nil : left ≠ node .nil
  right_ne_nil : right ≠ node .nil

theorem not_redex_alt_iff : ¬ Redex (.alt left right) ↔ Ordered left right := by
  constructor
  · intro free
    refine ⟨?_, Nat.le_of_not_lt fun lower => free (.higher lower), ?_, ?_, ?_⟩
    all_goals
      intros
      rintro rfl
      exact free (by constructor)
  · intro ordered redex
    cases redex with
    | altNil _ => exact ordered.right_ne_nil rfl
    | nilAlt _ => exact ordered.left_ne_nil rfl
    | altAlt _ _ _ => exact ordered.single _ _ rfl
    | altSelf _ => exact ordered.distinct rfl
    | higher lower => exact Nat.not_le_of_lt lower ordered.height_le

/-- Where the left tree is no union and not the higher one, nothing is rearranged. -/
theorem unite_eq_join (single : ∀ l r, left ≠ node (.alt l r))
    (height_le : left.height ≤ right.height) : unite left right = join left right := by
  have turned : turn left right = (left, right) := by
    unfold turn
    split
    · exact absurd rfl (single _ _)
    · rfl
  have ordered : order left right = (left, right) := if_neg (Nat.not_lt_of_le height_le)
  simp only [unite, turned, ordered]

theorem join_of_ordered (ordered : Ordered left right) :
    join left right = node (.alt left right) := by
  rcases join_cases left right with ⟨same | isNil | isNil, _⟩ | ⟨_, joined⟩
  · exact absurd same ordered.distinct
  · exact absurd isNil ordered.right_ne_nil
  · exact absurd isNil ordered.left_ne_nil
  · exact joined

theorem fixed_of_irreducible (irreducible : Irreducible tree) : tree.simplify = tree := by
  induction irreducible with
  | undefined _ => rfl
  | @node e free _ inductionHypothesis =>
      by_cases isAlt : ∃ left right, e = .alt left right
      · obtain ⟨left, right, rfl⟩ := isAlt
        have ordered := not_redex_alt_iff.mp free
        rw [simplify_alt, inductionHypothesis left (by simp [Expr.operands]),
          inductionHypothesis right (by simp [Expr.operands]),
          unite_eq_join ordered.single ordered.height_le, join_of_ordered ordered]
      · have other : ∀ left right, e ≠ .alt left right := fun left right same =>
          isAlt ⟨left, right, same⟩
        have sameMap : e.map simplify = e :=
          (Expr.map_congr inductionHypothesis).trans (Expr.map_id e)
        rw [simplify_node other, sameMap, reduce,
          not_not.mp fun some => free ((redex_iff other).mpr some)]
        rfl

/-- No rule applies where a round leaves an operator other than a union as it is. -/
theorem contract_eq_none_of_fixed (other : ∀ left right, e ≠ .alt left right)
    (fixed : simplify (node e) = node e) :
    contract e = none ∧ ∀ o ∈ e.operands, o.simplify = o := by
  rw [simplify_node other, reduce] at fixed
  cases contracts : contract (e.map simplify) with
  | some t =>
      rw [contracts] at fixed
      cases fixed
      have less := mass_contract contracts
      rw [mass_node, Expr.map_map] at less
      have lighter := Expr.mass_map_le (e := e) (f := fun o => o.simplify.mass) (g := mass)
        fun o _ => mass_next_le lawful (x := o) trivial
      exact absurd less (Nat.not_lt_of_le lighter)
  | none =>
      rw [contracts] at fixed
      have sameMap : e.map simplify = e := Tree.node.inj fixed
      rw [sameMap] at contracts
      refine ⟨contracts, ?_⟩
      have operands := congrArg Expr.operands sameMap
      rw [Expr.operands_map] at operands
      exact List.map_inj_left.mp (operands.trans (List.map_id _).symm)

theorem irreducible_of_fixed (fixed : tree.simplify = tree) : Irreducible tree := by
  induction bound : tree.mass using Nat.strong_induction_on generalizing tree with
  | _ n inductionHypothesis =>
      subst bound
      rcases tree with link | e
      · exact .undefined link
      have operand : ∀ o ∈ e.operands, o.simplify = o → Irreducible o := fun o member fixed =>
        inductionHypothesis _ (rewriting.mass_operand (x := node e) member) fixed rfl
      by_cases isAlt : ∃ left right, e = .alt left right
      · obtain ⟨left, right, rfl⟩ := isAlt
        obtain ⟨fixedLeft, fixedRight, single, h, h', isHeight, isHeight', height_le⟩ :=
          orderly_of_fixed (x := node (.alt left right)) lawful (fun _ => trivial) fixed rfl
        cases isHeight
        cases isHeight'
        have single := single_iff.mp single
        have joined : join left right = node (.alt left right) := by
          rw [← unite_eq_join single height_le, ← fixed, simplify_alt]
          exact congrArg₂ unite fixedLeft.symm fixedRight.symm
        refine .node (not_redex_alt_iff.mpr ?_) ?_
        · rcases join_cases left right with ⟨_, less⟩ | ⟨⟨distinct, some, some'⟩, _⟩
          · rw [joined] at less
            exact absurd less (Nat.lt_irrefl _)
          · exact ⟨single, height_le, distinct, some', some⟩
        · intro o member
          rcases List.mem_pair.mp member with rfl | rfl
          · exact operand _ member fixedLeft
          · exact operand _ member fixedRight
      · have other : ∀ left right, e ≠ .alt left right := fun left right same =>
          isAlt ⟨left, right, same⟩
        obtain ⟨contracts, fixed⟩ := contract_eq_none_of_fixed other fixed
        refine .node (fun redex => (redex_iff other).mp redex contracts) fun o member => ?_
        exact operand o member (fixed o member)

/-- The trees that stay as they are in a round are those to which no rule applies. -/
theorem simplify_eq_self_iff : tree.simplify = tree ↔ Irreducible tree :=
  ⟨irreducible_of_fixed, fixed_of_irreducible⟩

end Tree

end Residual
