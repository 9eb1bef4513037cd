import Residual.Proofs.Grammar.Equality
import Residual.Proofs.Grammar.Heights
import Residual.Proofs.Grammar.NormalForm.Copies

/-!
# Simplified forms of closed expressions

What the table of the simplified forms says about closed expressions was made by one round of the
rules.  Which rules were tried depends on the tables of the heights and of the equalities as they
were then, and it is said here in terms of what they know now: their settled values never change.
-/

set_option autoImplicit false

namespace Residual.Grammar

open Memo

variable {grammar before between after : Grammar} {limit : Nat}
  {x y z left right l r l' r' o s : ExprId}
  {e : Expr ExprId}

/-- Closed expressions are rewritten to their simplified forms, as far as they are known. -/
noncomputable def rewriting (grammar : Grammar) : Rewriting ExprId where
  view := grammar.arena.view
  mass id := (grammar.arena.tree id).mass
  mass_eq := grammar.arena.mass_tree
  height id := grammar.tables.heights.settled[id]?
  next id :=
    match grammar.tables.simplified.lookup id with
    | .known simple => simple
    | _ => id
  Active id := grammar.arena.Closed id ∧ ∃ simple, grammar.SimplifiesTo id simple

/-- The simplified form of an expression is known, and it is closed. -/
structure Tells (grammar : Grammar) (x y : ExprId) : Prop where
  told : grammar.SimplifiesTo x y
  closed : grammar.arena.Closed y
  resolved : grammar.arena.resolve y = y

/-- What was made of a union of `left` and `right` whose operands were rewritten to `l` and `r`. -/
inductive Joins (grammar : Grammar) (x left right l r : ExprId) : ExprId → Prop where
  | same : grammar.tables.equalities.settled[Arena.unorderedPair l r]? = some true →
      Joins grammar x left right l r l
  | altNil : grammar.tables.equalities.settled[Arena.unorderedPair l r]? = some false →
      grammar.arena.view r = .nil → Joins grammar x left right l r l
  | nilAlt : grammar.tables.equalities.settled[Arena.unorderedPair l r]? = some false →
      grammar.arena.view r ≠ .nil → grammar.arena.view l = .nil → Joins grammar x left right l r r
  | alt {y : ExprId} : grammar.tables.equalities.settled[Arena.unorderedPair l r]? = some false →
      grammar.arena.view r ≠ .nil → grammar.arena.view l ≠ .nil →
      grammar.arena.view y = .alt l r → y = x ∨ grammar.rewriting.Graded y →
      (l = left → r = right → y = x) → Joins grammar x left right l r y

/-- The operands `left` and `right` of a union are `l` and `r` after they were turned around and put
in order. -/
structure Arranges (grammar : Grammar) (left right l r : ExprId) : Prop where
  turned : ∃ l₀ r₀, grammar.rewriting.Turns left right l₀ r₀ ∧ grammar.rewriting.Orders l₀ r₀ l r
  resolved : grammar.arena.resolve l = l ∧ grammar.arena.resolve r = r
  clean : ∀ {limit}, grammar.arena.Patched limit l ∨ grammar.arena.Patched limit r →
    grammar.arena.Patched limit left ∨ grammar.arena.Patched limit right

/-- What was made of a closed expression. -/
inductive Made (grammar : Grammar) (x : ExprId) : ExprId → Prop where
  | never {lang : ExprId} : grammar.arena.view x = .rep lang (.finite 0) → Made grammar x .empty
  /-- A rule other than those for unions was applied. -/
  | contracts {e : Expr ExprId} {y : ExprId} : (grammar.arena.view x).Related grammar.Tells e →
      Tree.contract (e.map grammar.arena.tree) = some (grammar.arena.tree y) → Made grammar x y
  /-- No rule was applied. -/
  | keeps {e : Expr ExprId} {y : ExprId} : grammar.rewriting.Single x →
      (grammar.arena.view x).Related grammar.Tells e →
      Tree.contract (e.map grammar.arena.tree) = none → grammar.arena.view y = e →
      (e = grammar.arena.view x → y = x) → Made grammar x y
  | unites {left right simpleLeft simpleRight l r y : ExprId} :
      grammar.arena.view x = .alt left right → grammar.Tells left simpleLeft →
      grammar.Tells right simpleRight → grammar.Arranges simpleLeft simpleRight l r →
      Joins grammar x left right l r y → Made grammar x y

/-- A closed expression below which nothing was bound that is not below `x`. -/
structure Inherits (grammar : Grammar) (x y : ExprId) : Prop where
  closed : grammar.arena.Closed y
  resolved : grammar.arena.resolve y = y
  clean : ∀ {limit}, grammar.arena.Patched limit y → grammar.arena.Patched limit x

/-- What is known of the simplified form of a closed expression. -/
structure Entry (grammar : Grammar) (x y : ExprId) : Prop extends Inherits grammar x y where
  made : grammar.Made x y

/-- The heights are right up to late links, the simplified forms of closed expressions were made by
the rules, and those of orderly expressions are copies. -/
structure Normal (limit : Nat) (grammar : Grammar) : Prop where
  measures : grammar.arena.Measures limit grammar.tables.heights
  inside : ∀ {x y : ExprId}, grammar.SimplifiesTo x y → x.number < grammar.arena.size
  entry : ∀ {x y : ExprId}, grammar.SimplifiesTo x y → grammar.arena.Closed x → grammar.Entry x y
  tracked : grammar.Tracked

theorem next_eq (told : grammar.SimplifiesTo x y) : grammar.rewriting.next x = y := by
  unfold SimplifiesTo at told
  simp only [rewriting, told]

theorem closed_of_alt (isAlt : grammar.arena.view x = .alt left right) : grammar.arena.Closed x :=
  Arena.closed_of_view_ne_nil (by simp [isAlt])

theorem Inherits.refl (closed : grammar.arena.Closed x) (resolved : grammar.arena.resolve x = x) :
    grammar.Inherits x x :=
  ⟨closed, resolved, fun patched => patched⟩

theorem Inherits.trans (first : grammar.Inherits x y) (second : grammar.Inherits y z) :
    grammar.Inherits x z :=
  ⟨second.closed, second.resolved, fun patched => first.clean (second.clean patched)⟩

theorem Inherits.of_operand (closed : grammar.arena.Closed x)
    (member : o ∈ (grammar.arena.view x).operands) : grammar.Inherits x o where
  closed := (closed.of_mem_view member).1
  resolved := (closed.of_mem_view member).2
  clean := closed.patched_of_operand (closed.operands_view ▸ member)

/-- An operator is closed with its operands. -/
theorem Inherits.of_expr (wellFormed : grammar.arena.WellFormed)
    (found : grammar.arena.slot? y = some (.expr e))
    (operands : ∀ o ∈ e.operands, grammar.Inherits x o) : grammar.Inherits x y where
  closed := wellFormed.closed_of_expr found fun o member => (operands o member).closed
  resolved := Arena.resolve_of_expr found
  clean patched := by
    obtain ⟨o, member, patched⟩ := patched.exists_operand found
    exact (operands o member).clean patched

/-- The parts of a union that was turned around are closed. -/
theorem closed_of_turns (turns : grammar.rewriting.Turns left right l r)
    (closed : grammar.arena.Closed left) (closed' : grammar.arena.Closed right) :
    grammar.arena.Closed l ∧ grammar.arena.Closed r := by
  cases turns with
  | flat _ => exact ⟨closed, closed'⟩
  | turned isAlt isTail _ =>
      have member : l ∈ (grammar.arena.view left).operands := by
        rw [show grammar.arena.view left = _ from isAlt]
        exact List.mem_cons_self
      exact ⟨(closed.of_mem_view member).1, closed_of_alt isTail⟩

theorem closed_of_orders (orders : grammar.rewriting.Orders l r l' r')
    (closed : grammar.arena.Closed l ∧ grammar.arena.Closed r) :
    grammar.arena.Closed l' ∧ grammar.arena.Closed r' := by
  cases orders with
  | kept _ _ _ => exact closed
  | swapped _ _ _ => exact closed.symm

theorem Arranges.closed (arranges : grammar.Arranges left right l r)
    (closed : grammar.arena.Closed left) (closed' : grammar.arena.Closed right) :
    grammar.arena.Closed l ∧ grammar.arena.Closed r := by
  obtain ⟨_, _, turns, orders⟩ := arranges.turned
  exact closed_of_orders orders (closed_of_turns turns closed closed')

theorem Arranges.mass_eq (arranges : grammar.Arranges left right l r) :
    grammar.rewriting.mass l + grammar.rewriting.mass r =
      grammar.rewriting.mass left + grammar.rewriting.mass right := by
  obtain ⟨_, _, turns, orders⟩ := arranges.turned
  exact orders.mass_eq.trans turns.mass_eq

/-! ## What lasts -/

/-- What is known about closed expressions in one grammar is still known in the other one. -/
structure Retains (before after : Grammar) : Prop where
  grows : before.arena.Grows after.arena
  wellFormed : after.arena.WellFormed
  heights : before.tables.heights.Lasts after.tables.heights
  equalities : before.tables.equalities.Lasts after.tables.equalities
  graded : ∀ {id}, before.arena.Closed id → before.rewriting.Graded id →
    after.rewriting.Graded id
  told : ∀ {x y}, before.SimplifiesTo x y → after.SimplifiesTo x y

theorem Retains.refl (wellFormed : grammar.arena.WellFormed) : grammar.Retains grammar :=
  ⟨.refl _, wellFormed, .refl _, .refl _, fun _ graded => graded, fun told => told⟩

theorem Retains.carries (retains : before.Retains after) (wellFormed : before.arena.WellFormed)
    (running : ∀ {key link}, before.Running key link → after.Running key link ∨
      ∃ value, after.SimplifiesTo key value ∧
        after.arena.resolve link = after.arena.resolve value) : before.Carries after :=
  ⟨retains.grows, wellFormed, retains.wellFormed, retains.told, running⟩

theorem Retains.trans {first second third : Grammar} (earlier : first.Retains second)
    (later : second.Retains third) : first.Retains third where
  grows := earlier.grows.trans later.grows
  wellFormed := later.wellFormed
  heights := earlier.heights.trans later.heights
  equalities := earlier.equalities.trans later.equalities
  graded closed graded :=
    later.graded (closed.grows earlier.grows earlier.wellFormed) (earlier.graded closed graded)
  told told := later.told (earlier.told told)

namespace Retains

variable (retains : before.Retains after)

include retains

theorem closed (closed : before.arena.Closed x) : after.arena.Closed x :=
  closed.grows retains.grows retains.wellFormed

theorem view_eq (closed : before.arena.Closed x) : after.arena.view x = before.arena.view x :=
  closed.view_grows retains.grows retains.wellFormed

theorem tree_eq (closed : before.arena.Closed x) : after.arena.tree x = before.arena.tree x :=
  closed.tree_grows retains.grows retains.wellFormed

/-- What is seen as a union now is still seen so. -/
theorem view_of_alt (isAlt : before.arena.view x = .alt left right) :
    after.arena.view x = .alt left right :=
  (retains.view_eq (closed_of_alt isAlt)).trans isAlt

theorem tells (tells : before.Tells o s) : after.Tells o s where
  told := retains.told tells.told
  closed := retains.closed tells.closed
  resolved := (tells.closed.resolve_grows retains.grows retains.wellFormed).trans tells.resolved

theorem single (closed : before.arena.Closed x) (single : before.rewriting.Single x) :
    after.rewriting.Single x :=
  fun left right isAlt => single left right ((retains.view_eq closed).symm.trans isAlt)

theorem turns (turns : before.rewriting.Turns left right l r) (closed : before.arena.Closed left) :
    after.rewriting.Turns left right l r := by
  cases turns with
  | flat single => exact .flat (retains.single closed single)
  | turned isAlt isTail graded =>
      exact .turned (retains.view_of_alt isAlt) (retains.view_of_alt isTail)
        (retains.graded (closed_of_alt isTail) graded)

theorem orders (orders : before.rewriting.Orders l r l' r') :
    after.rewriting.Orders l r l' r' := by
  cases orders with
  | kept isHeight isHeight' lower =>
      exact .kept (retains.heights _ _ isHeight) (retains.heights _ _ isHeight') lower
  | swapped isHeight isHeight' lower =>
      exact .swapped (retains.heights _ _ isHeight) (retains.heights _ _ isHeight') lower

theorem joins (joins : before.Joins x left right l r y) (closed : before.arena.Closed l)
    (closed' : before.arena.Closed r) : after.Joins x left right l r y := by
  cases joins with
  | same isEqual => exact .same (retains.equalities _ _ isEqual)
  | altNil distinct isNil =>
      exact .altNil (retains.equalities _ _ distinct) ((retains.view_eq closed').trans isNil)
  | nilAlt distinct known isNil =>
      exact .nilAlt (retains.equalities _ _ distinct) (retains.view_eq closed' ▸ known)
        ((retains.view_eq closed).trans isNil)
  | alt distinct known known' isAlt graded unchanged =>
      refine .alt (retains.equalities _ _ distinct) (retains.view_eq closed' ▸ known)
        (retains.view_eq closed ▸ known') (retains.view_of_alt isAlt) ?_ unchanged
      exact graded.imp_right (retains.graded (closed_of_alt isAlt))

theorem arranges (arranges : before.Arranges left right l r) (closed : before.arena.Closed left)
    (closed' : before.arena.Closed right) : after.Arranges left right l r := by
  obtain ⟨isClosed, isClosed'⟩ := arranges.closed closed closed'
  obtain ⟨l₀, r₀, turns, orders⟩ := arranges.turned
  refine ⟨⟨l₀, r₀, retains.turns turns closed, retains.orders orders⟩, ⟨?_, ?_⟩, fun patched => ?_⟩
  · exact (isClosed.resolve_grows retains.grows retains.wellFormed).trans arranges.resolved.1
  · exact (isClosed'.resolve_grows retains.grows retains.wellFormed).trans arranges.resolved.2
  · refine (arranges.clean (patched.imp ?_ ?_)).imp (·.grows retains.grows) (·.grows retains.grows)
    · exact isClosed.patched_grows retains.grows
    · exact isClosed'.patched_grows retains.grows

/-- The trees of simplified operands last. -/
theorem map_tree_eq (related : (before.arena.view x).Related before.Tells e) :
    e.map after.arena.tree = e.map before.arena.tree := by
  refine Expr.map_congr fun s member => ?_
  obtain ⟨o, _, tells⟩ := Arena.exists_related_left related.operands s member
  exact retains.tree_eq tells.closed

theorem made (made : before.Made x y) (closed : before.arena.Closed x)
    (closed' : before.arena.Closed y) : after.Made x y := by
  have sameView := retains.view_eq closed
  have related : ∀ {e}, (before.arena.view x).Related before.Tells e →
      (after.arena.view x).Related after.Tells e := by
    intro e related
    rw [sameView]
    exact related.imp fun _ _ => retains.tells
  cases made with
  | never isRep => exact .never (sameView.trans isRep)
  | contracts told contracts =>
      refine .contracts (related told) ?_
      rw [retains.map_tree_eq told, retains.tree_eq closed']
      exact contracts
  | keeps single told contracts isView unchanged =>
      refine .keeps (retains.single closed single) (related told) ?_
        ((retains.view_eq closed').trans isView) (sameView ▸ unchanged)
      rw [retains.map_tree_eq told]
      exact contracts
  | unites isAlt tells tells' arranges joins =>
      obtain ⟨isClosed, isClosed'⟩ := arranges.closed tells.closed tells'.closed
      exact .unites (sameView.trans isAlt) (retains.tells tells) (retains.tells tells')
        (retains.arranges arranges tells.closed tells'.closed)
        (retains.joins joins isClosed isClosed')

theorem inherits (inherits : before.Inherits x y) : after.Inherits x y where
  closed := retains.closed inherits.closed
  resolved :=
    (inherits.closed.resolve_grows retains.grows retains.wellFormed).trans inherits.resolved
  clean patched :=
    (inherits.clean (inherits.closed.patched_grows retains.grows patched)).grows retains.grows

theorem entry (entry : before.Entry x y) (closed : before.arena.Closed x) : after.Entry x y where
  toInherits := retains.inherits entry.toInherits
  made := retains.made entry.made closed entry.closed

end Retains

/-- The arena grows, and the tables of heights and equalities stay as they are. -/
theorem Retains.of_grows (growing : before.arena.Grows after.arena)
    (wellFormed' : after.arena.WellFormed) (heights : after.tables.heights = before.tables.heights)
    (equalities : after.tables.equalities = before.tables.equalities)
    (told : ∀ {x y}, before.SimplifiesTo x y → after.SimplifiesTo x y) : before.Retains after where
  grows := growing
  wellFormed := wellFormed'
  heights := by
    rw [heights]
    exact .refl _
  equalities := by
    rw [equalities]
    exact .refl _
  graded closed graded := by
    intro h isHeight o member
    simp only [rewriting, heights] at isHeight member ⊢
    rw [closed.view_grows growing wellFormed'] at member
    exact graded h isHeight o member
  told := told

/-- Analyses add to the tables of heights and equalities. -/
theorem Retains.of_heightens (wellFormed : before.arena.WellFormed)
    (arena : after.arena = before.arena)
    (heightens : before.arena.Heightens before.tables.heights after.tables.heights)
    (lasts : before.tables.equalities.Lasts after.tables.equalities)
    (told : ∀ {x y}, before.SimplifiesTo x y → after.SimplifiesTo x y) : before.Retains after where
  grows := arena ▸ .refl _
  wellFormed := arena ▸ wellFormed
  heights := heightens.lasts
  equalities := lasts
  graded closed graded := by
    have grades := heightens.grades closed graded
    intro h isHeight o member
    simp only [rewriting, arena] at isHeight member ⊢
    exact grades h isHeight o member
  told := told

/-- What was known is still right if nothing was bound that was there before. -/
theorem Normal.later (normal : before.Normal limit) (wellFormed : before.arena.WellFormed)
    (extending : before.arena.Extends after.arena) (retains : before.Retains after)
    (measures : after.arena.Measures limit after.tables.heights)
    (told : ∀ {x y}, after.SimplifiesTo x y → before.SimplifiesTo x y)
    (running : ∀ {key link}, before.Running key link → after.Running key link) :
    after.Normal limit where
  measures := measures
  inside isTold := extending.grows.lt_size (normal.inside (told isTold))
  tracked isTold orderly := by
    have inside := normal.inside (told isTold)
    have orderly := (extending.orderly_iff wellFormed retains.wellFormed inside).mp orderly
    have carries := retains.carries wellFormed fun isRunning => .inl (running isRunning)
    exact carries.becomes inside orderly
      (fun isRunning ended => absurd (running isRunning) ended)
      (normal.tracked (told isTold) orderly)
  entry isTold closed := by
    have wasTold := told isTold
    have closed := closed.of_extends extending wellFormed (normal.inside wasTold)
    exact retains.entry (normal.entry wasTold closed) closed

theorem Normal.extends (normal : before.Normal limit) (limited : limit ≤ before.arena.size)
    (wellFormed : before.arena.WellFormed) (extending : before.arena.Extends after.arena)
    (wellFormed' : after.arena.WellFormed) (heights : after.tables.heights = before.tables.heights)
    (equalities : after.tables.equalities = before.tables.equalities)
    (simplified : after.tables.simplified = before.tables.simplified) : after.Normal limit := by
  have told : ∀ {x y}, after.SimplifiesTo x y ↔ before.SimplifiesTo x y := by
    intro x y
    unfold SimplifiesTo
    rw [simplified]
  refine normal.later wellFormed extending
    (.of_grows extending.grows wellFormed' heights equalities told.mpr) ?_ told.mp ?_
  case refine_2 =>
    unfold Running
    rw [simplified]
    exact fun running => running
  rw [heights]
  exact normal.measures.grows extending.grows (extending.agree limited) wellFormed wellFormed'

theorem Normal.of_heightens (normal : before.Normal limit) (wellFormed : before.arena.WellFormed)
    (arena : after.arena = before.arena)
    (heightens : before.arena.Heightens before.tables.heights after.tables.heights)
    (lasts : before.tables.equalities.Lasts after.tables.equalities)
    (simplified : after.tables.simplified = before.tables.simplified) : after.Normal limit := by
  have told : ∀ {x y}, after.SimplifiesTo x y ↔ before.SimplifiesTo x y := by
    intro x y
    unfold SimplifiesTo
    rw [simplified]
  refine normal.later wellFormed (arena ▸ .refl _)
    (.of_heightens wellFormed arena heightens lasts told.mpr) ?_ told.mp ?_
  case refine_2 =>
    unfold Running
    rw [simplified]
    exact fun running => running
  rw [arena]
  exact heightens.measures limit normal.measures

/-- Without simplified forms and heights there is nothing to be said. -/
theorem Normal.of_empty (simplified : grammar.tables.simplified = .empty .singlePass)
    (heights : ∃ strategy, grammar.tables.heights = .empty strategy) : grammar.Normal limit := by
  have none : ∀ {x y}, ¬ grammar.SimplifiesTo x y := by
    intro x y told
    unfold SimplifiesTo at told
    simp [simplified, Table.lookup] at told
  obtain ⟨strategy, heights⟩ := heights
  refine ⟨?_, fun told => absurd told none, fun told => absurd told none, fun told =>
    absurd told none⟩
  rw [heights]
  exact .empty _ _ strategy

end Residual.Grammar
