import Residual.Proofs.Grammar.NormalForm.Preservation
import Residual.Proofs.Grammar.Strategies
import Residual.Proofs.Memo.Visits

/-!
# What the questions visit

The keys that the evaluation of a question visits, on expressions of any form: cycles may lead through
every operator, and rules may be undefined.  Analyses, deltas and simplifications stay among the
expressions that can be reached from the one they are asked about, although the arena grows meanwhile.
A derivation also derives new expressions, each of them right after the option, range or literal it was
made for.
-/

set_option autoImplicit false

namespace Residual

open Memo

namespace Arena

variable {arena : Arena} {root id x y : ExprId} {c : Char}

/-- One of the two expressions can be reached from `x` and the other one from `y`. -/
def ReachesPair (arena : Arena) (x y : ExprId) (pair : ExprId × ExprId) : Prop :=
  arena.Reaches x pair.1 ∧ arena.Reaches y pair.2 ∨ arena.Reaches y pair.1 ∧ arena.Reaches x pair.2

theorem reachesPair_unorderedPair {o o' : ExprId} (reaches : arena.Reaches x o)
    (reaches' : arena.Reaches y o') : arena.ReachesPair x y (unorderedPair o o') := by
  rcases unorderedPair_cases o o' with order | order
  · rw [order]
    exact .inl ⟨reaches, reaches'⟩
  · rw [order]
    exact .inr ⟨reaches', reaches⟩

theorem ReachesPair.child {pair other : ExprId × ExprId} (reaches : arena.ReachesPair x y pair)
    (child : arena.PairChild pair other) : arena.ReachesPair x y other := by
  obtain ⟨o, o', child, child', rfl⟩ := child
  rcases reaches with ⟨reaches, reaches'⟩ | ⟨reaches', reaches⟩
  · exact reachesPair_unorderedPair (reaches.tail child) (reaches'.tail child')
  · rw [unorderedPair_comm]
    exact reachesPair_unorderedPair (reaches.tail child') (reaches'.tail child)

end Arena

/-- The operators for which a derivation makes a new expression and derives that. -/
def Expr.isRemade {Operand : Type} : Expr Operand → Bool
  | .opt _ | .range .. | .token _ => true
  | _ => false

namespace Arena

variable {base arena after : Arena} {root id : ExprId}

/-- The keys that a derivation of `root` by `c` may visit after others: expressions that `root`
reaches, `ε` and `∅`, and a new expression right after the one it was made for. -/
structure MayDerive (base : Arena) (root : ExprId) (c : Char) (visited : List Derivation)
    (key : Derivation) : Prop where
  char_eq : key.c = c
  lang : base.Reaches root key.lang ∨ key.lang = .empty ∨ key.lang = .nil ∨
    base.size ≤ key.lang.number ∧ ∃ source, visited.head? = some ⟨source, c⟩ ∧
      base.Reaches root source ∧ (base.get source).isRemade = true

/-- What a derivation of `root` that began in the arena `base` may be asked for. -/
inductive ToDerive (base : Arena) (root : ExprId) (arena : Arena) (id : ExprId) : Prop where
  | reached : base.Reaches root id → ToDerive base root arena id
  | empty : id = .empty → ToDerive base root arena id
  | nil : id = .nil → ToDerive base root arena id
  | char {c : Char} : base.size ≤ id.number → arena.slot? id = some (.expr (.char c)) →
      ToDerive base root arena id
  | option {lang : ExprId} : base.size ≤ id.number →
      arena.slot? id = some (.expr (.alt lang .empty)) → lang.number < base.size →
      base.Reaches root (base.resolve lang) → ToDerive base root arena id

namespace ToDerive

theorem grows (asked : base.ToDerive root arena id) (growing : arena.Grows after) :
    base.ToDerive root after id := by
  cases asked with
  | reached reaches => exact .reached reaches
  | empty isEmpty => exact .empty isEmpty
  | nil isNil => exact .nil isNil
  | char isNew found => exact .char isNew (growing.expr found)
  | option isNew found inside reaches => exact .option isNew (growing.expr found) inside reaches

variable (asked : base.ToDerive root arena id) (wellFormed : base.WellFormed)
  (inside : root.number < base.size) (extending : base.Extends arena)

include asked wellFormed inside extending

/-- The operands of what is asked for were there before, and may be asked for too. -/
theorem operand {o : ExprId} (member : o ∈ (arena.get id).operands) :
    o.number < base.size ∧ (base.Reaches root (base.resolve o) ∨ base.resolve o = .empty) := by
  cases asked with
  | reached reaches =>
      rw [extending.get wellFormed (wellFormed.reaches_lt inside reaches)] at member
      refine ⟨wellFormed.operand_lt_of_get member, .inl (reaches.tail ?_)⟩
      exact mem_operands_iff.mpr ⟨o, member, rfl⟩
  | empty isEmpty =>
      rw [isEmpty, extending.get wellFormed wellFormed.empty_lt_size,
        get_of_stands wellFormed.stands_empty] at member
      simp [Expr.operands] at member
  | nil isNil =>
      rw [isNil, extending.get wellFormed wellFormed.nil_lt_size,
        get_of_stands wellFormed.stands_nil] at member
      simp [Expr.operands] at member
  | char _ found =>
      rw [get_of_stands (stands_of_expr found)] at member
      simp [Expr.operands] at member
  | option _ found below reaches =>
      rw [get_of_stands (stands_of_expr found)] at member
      rcases List.mem_pair.mp member with rfl | rfl
      · exact ⟨below, .inl reaches⟩
      · exact ⟨wellFormed.empty_lt_size, .inr wellFormed.resolve_empty⟩

/-- Only what was there before is made anew. -/
theorem reaches_of_isRemade (remade : (arena.get id).isRemade = true) :
    base.Reaches root id ∧ base.get id = arena.get id := by
  cases asked with
  | reached reaches =>
      exact ⟨reaches, (extending.get wellFormed (wellFormed.reaches_lt inside reaches)).symm⟩
  | empty isEmpty =>
      rw [isEmpty, extending.get wellFormed wellFormed.empty_lt_size,
        get_of_stands wellFormed.stands_empty] at remade
      cases remade
  | nil isNil =>
      rw [isNil, extending.get wellFormed wellFormed.nil_lt_size,
        get_of_stands wellFormed.stands_nil] at remade
      cases remade
  | char _ found | option _ found _ _ =>
      rw [get_of_stands (stands_of_expr found)] at remade
      cases remade

end ToDerive

variable {keys : List Derivation} {c : Char}

/-- What a derivation of `root` by `c` visits in one pass: expressions that `root` reaches, `ε`, `∅`,
and at most one new expression for each option, range and literal that `root` reaches. -/
structure DerivesWithin (base : Arena) (root : ExprId) (c : Char) (keys : List Derivation) :
    Prop where
  char_eq : ∀ key ∈ keys, key.c = c
  lang : ∀ key ∈ keys, base.Reaches root key.lang ∨ key.lang = .empty ∨ key.lang = .nil ∨
    base.size ≤ key.lang.number
  remade : ∃ origin : ExprId → ExprId,
    Set.InjOn origin {id | ⟨id, c⟩ ∈ keys ∧ base.size ≤ id.number} ∧
    ∀ id, ⟨id, c⟩ ∈ keys → base.size ≤ id.number →
      base.Reaches root (origin id) ∧ (base.get (origin id)).isRemade = true

/-- A new expression is derived right after what it was made for, so that none was made yet for the
last key. -/
theorem exists_origin (wellFormed : base.WellFormed) (inside : root.number < base.size)
    (trail : Trail (base.MayDerive root c) keys) (nodup : keys.Nodup) :
    ∃ origin : ExprId → ExprId,
      Set.InjOn origin {id | ⟨id, c⟩ ∈ keys ∧ base.size ≤ id.number} ∧
      ∀ id, ⟨id, c⟩ ∈ keys → base.size ≤ id.number → ⟨origin id, c⟩ ∈ keys.tail ∧
        base.Reaches root (origin id) ∧ (base.get (origin id)).isRemade = true := by
  induction trail with
  | nil => exact ⟨id, by simp [Set.InjOn], nofun⟩
  | @visit earlier key trail may inductionHypothesis =>
      obtain ⟨unvisited, nodupEarlier⟩ := List.nodup_cons.mp nodup
      obtain ⟨origin, injective, made⟩ := inductionHypothesis nodupEarlier
      obtain ⟨last, c'⟩ := key
      obtain rfl : c' = c := may.char_eq
      have known : ∀ {id}, ⟨id, c'⟩ ∈ ⟨last, c'⟩ :: earlier → id = last ∨ ⟨id, c'⟩ ∈ earlier := by
        simp
      by_cases lastIsNew : base.size ≤ last.number
      case neg =>
        have known : ∀ {id}, ⟨id, c'⟩ ∈ ⟨last, c'⟩ :: earlier → base.size ≤ id.number →
            ⟨id, c'⟩ ∈ earlier := fun member isNew' =>
          (known member).resolve_left (by rintro rfl; exact lastIsNew isNew')
        refine ⟨origin, ?_, fun id member isNew => ?_⟩
        · rintro id ⟨member, isNew⟩ id' ⟨member', isNew'⟩ same
          exact injective ⟨known member isNew, isNew⟩ ⟨known member' isNew', isNew'⟩ same
        · obtain ⟨member', source⟩ := made id (known member isNew) isNew
          exact ⟨List.mem_of_mem_tail member', source⟩
      obtain ⟨source, isHead, remade⟩ : ∃ source, earlier.head? = some ⟨source, c'⟩ ∧
          base.Reaches root source ∧ (base.get source).isRemade = true := by
        rcases may.lang with reaches | rfl | rfl | ⟨_, source⟩
        · exact absurd (wellFormed.reaches_lt inside reaches) (Nat.not_lt_of_le lastIsNew)
        · exact absurd wellFormed.empty_lt_size (Nat.not_lt_of_le lastIsNew)
        · exact absurd wellFormed.nil_lt_size (Nat.not_lt_of_le lastIsNew)
        · exact source
      have fresh : ∀ {id}, ⟨id, c'⟩ ∈ earlier → id ≠ last := by
        rintro id member rfl
        exact unvisited member
      have unused : ∀ {id}, ⟨id, c'⟩ ∈ earlier → base.size ≤ id.number → origin id ≠ source := by
        rintro id member isNew rfl
        obtain ⟨head, rest, rfl⟩ := List.exists_cons_of_ne_nil (List.ne_nil_of_mem member)
        obtain rfl : head = ⟨origin id, c'⟩ := Option.some.inj isHead
        exact (List.nodup_cons.mp nodupEarlier).1 (made id member isNew).1
      refine ⟨Function.update origin last source, ?_, fun id member isNew => ?_⟩
      · rintro id ⟨member, isNew⟩ id' ⟨member', isNew'⟩ same
        rcases known member with rfl | isOld <;> rcases known member' with rfl | isOld'
        · rfl
        · rw [Function.update_self, Function.update_of_ne (fresh isOld')] at same
          exact absurd same.symm (unused isOld' isNew')
        · rw [Function.update_self, Function.update_of_ne (fresh isOld)] at same
          exact absurd same (unused isOld isNew)
        · rw [Function.update_of_ne (fresh isOld), Function.update_of_ne (fresh isOld')] at same
          exact injective ⟨isOld, isNew⟩ ⟨isOld', isNew'⟩ same
      · rcases known member with rfl | isOld
        · rw [Function.update_self]
          exact ⟨List.mem_of_mem_head? isHead, remade⟩
        · rw [Function.update_of_ne (fresh isOld)]
          obtain ⟨member', source⟩ := made id isOld isNew
          exact ⟨List.mem_of_mem_tail member', source⟩

theorem derivesWithin_of_trail (wellFormed : base.WellFormed) (inside : root.number < base.size)
    (trail : Trail (base.MayDerive root c) keys) (nodup : keys.Nodup) :
    base.DerivesWithin root c keys := by
  obtain ⟨origin, injective, made⟩ := exists_origin wellFormed inside trail nodup
  refine ⟨trail.forall_mem fun _ _ may => may.char_eq, trail.forall_mem fun _ _ may => ?_,
    origin, injective, fun id member isNew => (made id member isNew).2⟩
  exact may.lang.imp_right (.imp_right (.imp_right And.left))

end Arena

namespace Grammar

/-! ## Analyses -/

section Analyses

variable {Key Value : Type} [BEq Key] [Hashable Key] {table : Tables → Table Key Value}
  {modifyTable : (Table Key Value → Table Key Value) → Tables → Tables} {arena : Arena}
  {equation : Arena → Key → Reading Key Value Value} {Allowed : Key → Prop}

/-- An analysis visits what its equations ask for. -/
theorem tours_analysis (isField : Tables.IsField table modifyTable) (bottom : Value)
    (asks : ∀ key, Allowed key → (equation arena key).Asks Allowed) :
    (analysis table modifyTable bottom equation).Tours (fun _ => Allowed)
      (fun grammar => grammar.arena = arena) (fun _ => Allowed) (fun _ => True) where
  table_modify f grammar := isField.table_modify f grammar.tables
  modifyTable _ _ within := ⟨within, id⟩
  noteRepeated within := ⟨within, rfl⟩
  noteExhausted _ _ := rfl
  bottom within allowed := (ensures_pure _ _).mpr ⟨trivial, within, allowed, rfl⟩
  step {_ _} _ recurs {key _} within steady allowed _ := by
    refine (ensures_bind _ _ _).mpr ((ensures_get _).mpr ?_)
    dsimp only
    rw [within]
    exact (asks key allowed).ensures_run
      (fun ⟨within, steady⟩ allowed => recurs within steady allowed allowed) ⟨within, steady⟩
  finish within _ := (ensures_pure _ _).mpr ⟨within, rfl⟩

end Analyses

/-! ## Transformations -/

section Transformations

variable {Key : Type} [BEq Key] [Hashable Key] {table : Tables → Table Key ExprId}
  {modifyTable : (Table Key ExprId → Table Key ExprId) → Tables → Tables}
  {step : (Key → Eval Grammar ExprId) → Key → Eval Grammar ExprId} {base : Arena}
  {May : List Key → Key → Prop}

/-- Links are bound that were not there when the call began. -/
theorem ensures_bindLink {link value : ExprId} {grammar : Grammar}
    (extending : base.Extends grammar.arena) (isNew : base.size ≤ link.number) :
    Ensures (liftM (bindLink link value) : Eval Grammar Bool) grammar fun _ after =>
      base.Extends after.arena ∧ after.tables = grammar.tables := by
  refine (Eval.ensures_lift _ _).mpr ⟨?_, rfl⟩
  change base.Extends (grammar.arena.bind link value).2
  by_cases unbound : grammar.arena.slot? link = some (.link none)
  · intro id inside
    have distinct : id ≠ link := by
      rintro rfl
      exact absurd inside (Nat.not_lt_of_le isNew)
    rw [Arena.slot?_bind_of_ne value unbound distinct]
    exact extending id inside
  · rw [Arena.bind_of_not_unbound unbound]
    exact extending

/-- A transformation visits what its step asks for, while only slots are added to the arena. -/
theorem tours_transformation (isField : Tables.IsField table modifyTable)
    (Ready : Arena → Key → Prop)
    (ready_extends : ∀ {before after : Arena} {key : Key}, before.Extends after →
      Ready before key → Ready after key)
    (tours : ∀ {recur : Key → Eval Grammar ExprId} {Steady : Grammar → Prop},
      (∀ {state after : Grammar}, Steady state → table after.tables = table state.tables →
        Steady after) →
      (∀ {other : Key} {state : Grammar}, base.Extends state.arena → Steady state →
        Ready state.arena other → May (table state.tables).visited other →
        Ensures (recur other) state fun _ after => base.Extends after.arena ∧ Steady after) →
      ∀ {key : Key} {state : Grammar}, base.Extends state.arena → Steady state →
        Ready state.arena key → (table state.tables).visited.head? = some key →
        Ensures (step recur key) state fun _ after => base.Extends after.arena ∧ Steady after) :
    (transformation table modifyTable step).Tours May (fun grammar => base.Extends grammar.arena)
      (fun grammar => Ready grammar.arena) (fun link => base.size ≤ link.number) where
  table_modify f grammar := isField.table_modify f grammar.tables
  modifyTable _ _ within := ⟨within, id⟩
  noteRepeated within := ⟨within, rfl⟩
  noteExhausted _ _ := rfl
  bottom {state _} within ready := by
    have extending := Arena.extends_reserve state.arena
    exact (Eval.ensures_lift _ _).mpr
      ⟨within.grows.size_le, within.trans extending, ready_extends extending ready, rfl⟩
  step steady recurs := tours steady recurs
  finish {state key link value} within isNew := by
    refine (ensures_bind _ _ _).mpr ((ensures_bindLink within isNew).mono ?_)
    rintro _ after ⟨within, same⟩
    exact (ensures_pure _ _).mpr ⟨within, congrArg table same⟩

end Transformations

/-- A literal takes new slots. -/
theorem extends_token (text : String) (grammar : Grammar) :
    grammar.arena.Extends (token text grammar).2.arena := by
  change Gives (token text) grammar fun _ after => grammar.arena.Extends after.arena
  unfold token
  split
  · exact Arena.extends_push grammar.arena (.char _)
  · exact (Arena.extends_intern grammar.arena text).trans (Arena.extends_push _ (.token text))

/-- What holds before holds after. -/
def Maintains (holds : Grammar → Prop) (before after : Grammar) : Prop :=
  holds before → holds after

section Steps

variable {base : Arena} {root : ExprId} {Steady : Grammar → Prop}

/-- Asking for an operand that was there when the call began. -/
theorem keeps_askOperand {recur : ExprId → Eval Grammar ExprId} {o : ExprId}
    (wellFormed : base.WellFormed) (inside : o.number < base.size)
    (recurs : ∀ {state : Grammar}, base.Extends state.arena → Steady state →
      Ensures (recur (base.resolve o)) state fun _ after =>
        base.Extends after.arena ∧ Steady after) :
    Keeps (Maintains fun grammar => base.Extends grammar.arena ∧ Steady grammar)
      (askOperand recur o) := by
  intro state
  refine (ensures_bind _ _ _).mpr ((ensures_get _).mpr (.of_imp ?_))
  rintro ⟨extending, steady⟩
  have same : state.resolve o = base.resolve o := extending.resolve wellFormed inside
  rw [same]
  exact recurs extending steady

/-- What a simplification asks and makes besides keeps the state steady. -/
theorem simplificationKeeps_steady
    (aside : ∀ {state after : Grammar}, Steady state →
      after.tables.simplified = state.tables.simplified → Steady after) :
    SimplificationKeeps (Maintains fun grammar => base.Extends grammar.arena ∧ Steady grammar) where
  refl _ := id
  trans _ _ _ begun ended := ended ∘ begun
  push e := keeps_lift _ fun state ⟨extending, steady⟩ =>
    ⟨extending.trans (Arena.extends_push state.arena e), aside steady rfl⟩
  height _ := keeps_get_bind fun _ state =>
    (keeps_analysis heights_isField _ _ _ _ state).mono fun _ after changed ⟨extending, steady⟩ => by
      obtain ⟨f, tables⟩ := changed.tables
      exact ⟨changed.arena ▸ extending, aside steady (tables ▸ rfl)⟩
  equal _ _ := keeps_get_bind fun _ state =>
    (keeps_analysis equalities_isField _ _ _ _ state).mono fun _ after changed ⟨extending, steady⟩ => by
      obtain ⟨f, tables⟩ := changed.tables
      exact ⟨changed.arena ▸ extending, aside steady (tables ▸ rfl)⟩

/-- A simplification visits what can be reached. -/
theorem tours_simplifications (wellFormed : base.WellFormed) (inside : root.number < base.size) :
    simplifications.Tours (fun _ => base.Reaches root) (fun grammar => base.Extends grammar.arena)
      (fun _ => base.Reaches root) (fun link => base.size ≤ link.number) := by
  apply tours_transformation ⟨fun _ _ => rfl, fun _ _ _ => rfl, fun _ => rfl⟩
    (fun _ => base.Reaches root) fun _ reaches => reaches
  intro recur Steady aside recurs key state extending steady reaches _
  have below := wellFormed.reaches_lt inside reaches
  refine ((simplificationKeeps_steady aside).ensures_simplifyStep ?_).mono
    fun _ _ maintains => maintains ⟨extending, steady⟩
  intro o member
  rw [show state.get key = base.get key from extending.get wellFormed below] at member
  have onward := reaches.tail (Arena.mem_operands_iff.mpr ⟨o, member, rfl⟩)
  exact keeps_askOperand wellFormed (wellFormed.operand_lt_of_get member)
    fun extending steady => recurs extending steady onward onward

/-- What a derivation or a delta asks and makes besides keeps the state steady. -/
theorem derivationKeeps_steady {Part : Type} (part : Tables → Part)
    (apart : ∀ (f : Table ExprId Bool → Table ExprId Bool) (tables : Tables), part { tables with nullability := f tables.nullability } = part tables)
    (aside : ∀ {state after : Grammar}, Steady state → part after.tables = part state.tables →
      Steady after) :
    DerivationKeeps (Maintains fun grammar => base.Extends grammar.arena ∧ Steady grammar) where
  refl _ := id
  trans _ _ _ begun ended := ended ∘ begun
  push e := keeps_lift _ fun state ⟨extending, steady⟩ =>
    ⟨extending.trans (Arena.extends_push state.arena e), aside steady rfl⟩
  token text := keeps_lift _ fun state ⟨extending, steady⟩ =>
    ⟨extending.trans (extends_token text state), aside steady (congrArg part (spares_token text state))⟩
  nullable _ := keeps_get_bind fun _ state =>
    (keeps_analysis nullability_isField _ _ _ _ state).mono fun _ after changed ⟨extending, steady⟩ => by
      obtain ⟨f, tables⟩ := changed.tables
      exact ⟨changed.arena ▸ extending, aside steady (tables ▸ apart f state.tables)⟩
  fail _ := keeps_modify _ fun _ ⟨extending, steady⟩ => ⟨extending, aside steady rfl⟩

/-- A delta visits what can be reached. -/
theorem tours_deltas (wellFormed : base.WellFormed) (inside : root.number < base.size) :
    deltas.Tours (fun _ => base.Reaches root) (fun grammar => base.Extends grammar.arena)
      (fun _ => base.Reaches root) (fun _ => True) where
  table_modify _ _ := rfl
  modifyTable _ _ within := ⟨within, id⟩
  noteRepeated within := ⟨within, rfl⟩
  noteExhausted _ _ := rfl
  bottom within reaches := (ensures_pure _ _).mpr ⟨trivial, within, reaches, rfl⟩
  step {_ _} aside recurs {key state} extending steady reaches _ := by
    have below := wellFormed.reaches_lt inside reaches
    refine ((derivationKeeps_steady Tables.deltas (fun _ _ => rfl) aside).ensures_deltaStep
      ?_).mono fun _ _ maintains => maintains ⟨extending, steady⟩
    intro o member
    rw [show state.get key = base.get key from extending.get wellFormed below] at member
    have onward := reaches.tail (Arena.mem_operands_iff.mpr ⟨o, member, rfl⟩)
    exact keeps_askOperand wellFormed (wellFormed.operand_lt_of_get member)
      fun extending steady => recurs extending steady onward onward
  finish within _ := (ensures_pure _ _).mpr ⟨within, rfl⟩

/-- A derivation visits what can be reached, and what it makes of that for new expressions. -/
theorem tours_derivatives (wellFormed : base.WellFormed) (inside : root.number < base.size)
    (c : Char) : derivatives.Tours (base.MayDerive root c)
      (fun grammar => base.Extends grammar.arena)
      (fun grammar key => key.c = c ∧ base.ToDerive root grammar.arena key.lang)
      (fun link => base.size ≤ link.number) := by
  apply tours_transformation ⟨fun _ _ => rfl, fun _ _ _ => rfl, fun _ => rfl⟩
    (fun arena (key : Derivation) => key.c = c ∧ base.ToDerive root arena key.lang)
    fun extending asked => ⟨asked.1, asked.2.grows extending.grows⟩
  rintro recur Steady aside recurs ⟨id, c⟩ state extending steady ⟨rfl, toDerive⟩ isHead
  -- operands and the atoms of the arena can be asked for at any time
  have old : ∀ {o : ExprId}, o.number < base.size →
      (base.Reaches root (base.resolve o) ∨ base.resolve o = .empty ∨ base.resolve o = .nil) →
      Keeps (Maintains fun grammar => base.Extends grammar.arena ∧ Steady grammar)
        (askOperand (fun id => recur ⟨id, c⟩) o) := by
    intro o below known
    refine keeps_askOperand wellFormed below fun extending steady => ?_
    rcases known with reaches | isEmpty | isNil
    · exact recurs extending steady ⟨rfl, .reached reaches⟩ ⟨rfl, .inl reaches⟩
    · exact recurs extending steady ⟨rfl, .empty isEmpty⟩ ⟨rfl, .inr (.inl isEmpty)⟩
    · exact recurs extending steady ⟨rfl, .nil isNil⟩ ⟨rfl, .inr (.inr (.inl isNil))⟩
  -- a new expression is asked for at once, while the key that it was made for is the last one visited
  have new : ∀ e : Expr ExprId, (state.arena.get id).isRemade = true →
      (state.arena.push e).2.slots = state.arena.slots.push (.expr e) →
      (state.arena.push e).1.number = state.arena.size →
      (∀ {arena : Arena} {made : ExprId}, base.size ≤ made.number →
        arena.slot? made = some (.expr e) → base.ToDerive root arena made) →
      Ensures (do askOperand (fun id => recur ⟨id, c⟩) (← liftM (push e))) state fun _ after =>
        Maintains (fun grammar => base.Extends grammar.arena ∧ Steady grammar) state after := by
    intro e remade added number asked
    obtain ⟨reaches, sameGet⟩ := toDerive.reaches_of_isRemade wellFormed inside extending remade
    have found : (state.arena.push e).2.slot? (state.arena.push e).1 = some (.expr e) :=
      (Arena.slot?_of_push_slots added _).trans (if_pos number)
    have isNew : base.size ≤ (state.arena.push e).1.number :=
      number ▸ extending.grows.size_le
    refine (ensures_bind _ _ _).mpr ((Eval.ensures_lift _ _).mpr ?_)
    refine (ensures_bind _ _ _).mpr ((ensures_get _).mpr (.of_imp ?_))
    rintro ⟨extending, steady⟩
    change Ensures (recur ⟨(state.arena.push e).2.resolve (state.arena.push e).1, c⟩) _ _
    rw [Arena.resolve_of_expr found]
    exact recurs (extending.trans (Arena.extends_push state.arena e)) (aside steady rfl)
      ⟨rfl, asked isNew found⟩
      ⟨rfl, .inr (.inr (.inr ⟨isNew, id, isHead, reaches, sameGet ▸ remade⟩))⟩
  refine ((derivationKeeps_steady Tables.derivatives (fun _ _ => rfl) aside).ensures_derivativeStep
    (old wellFormed.empty_lt_size (.inr (.inl wellFormed.resolve_empty)))
    (old wellFormed.nil_lt_size (.inr (.inr wellFormed.resolve_nil))) ?operand ?option ?range
    ?literal).mono fun _ _ maintains => maintains ⟨extending, steady⟩
  case operand =>
    intro o member
    obtain ⟨below, known⟩ := toDerive.operand wellFormed inside extending member
    exact old below (known.imp_right .inl)
  case option =>
    intro lang isOption
    have isOption : state.arena.get id = .opt lang := isOption
    have remade : (state.arena.get id).isRemade = true := by rw [isOption]; rfl
    obtain ⟨reaches, sameGet⟩ := toDerive.reaches_of_isRemade wellFormed inside extending remade
    have member : lang ∈ (base.get id).operands := by simp [sameGet, isOption, Expr.operands]
    have onward := reaches.tail (Arena.mem_operands_iff.mpr ⟨lang, member, rfl⟩)
    exact new (.alt lang .empty) remade rfl rfl fun isNew found =>
      .option isNew found (wellFormed.operand_lt_of_get member) onward
  case range =>
    intro low high isRange
    have isRange : state.arena.get id = .range low high := isRange
    exact new (.char c) (by rw [isRange]; rfl) rfl rfl .char
  case literal =>
    intro text first isLiteral
    have isLiteral : state.arena.get id = .token text := isLiteral
    exact new (.char first) (by rw [isLiteral]; rfl) rfl rfl .char

end Steps

end Grammar

end Residual
