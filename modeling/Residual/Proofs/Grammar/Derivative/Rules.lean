import Residual.Proofs.Arena.Exposure
import Residual.Proofs.Arena.History
import Residual.Proofs.Arena.Solutions

/-!
# The rules of derivation

`Derives` lists the rules by which the derivative of an expression is made from the derivatives of
its operands, as they are seen in one arena.  Optional expressions, ranges and literal strings are
derived through a new expression.

The answer means the derivative of the operator if the operands' answers do (`Derives.means`), and
it never leads above the derivative (`Derives.words_le`) or to an operator that was not below the
expression (`Derives.flag_le`).
-/

set_option autoImplicit false

namespace Residual

open Computability Interpretation

/-- The expression that a nonempty literal string is made of. -/
def Expr.literal {Operand : Type} : List Char → Expr Operand
  | [c] => .char c
  | text => .token (String.ofList text)

theorem Expr.language_literal {text : List Char} (nonempty : text ≠ []) :
    (Expr.literal text).language = {text} := by
  match text, nonempty with
  | [c], _ => rfl
  | c :: c' :: rest, _ =>
      ext word
      change word ≠ [] ∧ word = (String.ofList (c :: c' :: rest)).toList ↔ word = c :: c' :: rest
      rw [String.toList_ofList]
      grind

theorem Expr.literal_cases {Operand : Type} (text : List Char) :
    (∃ c, (Expr.literal text : Expr Operand) = .char c) ∨
      ∃ token, (Expr.literal text : Expr Operand) = .token token := by
  unfold Expr.literal
  split
  · exact .inl ⟨_, rfl⟩
  · exact .inr ⟨_, rfl⟩

theorem Expr.leaf_of_atomic {Operand : Type} {e : Expr Operand} (atomic : e.isAtomic = true) :
    e.operands = [] ∧ e.shape ≠ .not () ∧ Arena.IsCounted e.shape := by
  cases e with
  | char _ | empty | nil => exact ⟨rfl, nofun, nofun, nofun⟩
  | _ => cases atomic

theorem Expr.map_literal {Operand Other : Type} (f : Operand → Other) (text : List Char) :
    (Expr.literal text).map f = Expr.literal text := by
  unfold Expr.literal
  split <;> rfl

theorem Expr.Related.literal {A B : Type} {R : A → B → Prop} (text : List Char) :
    Expr.Related R (Expr.literal text) (Expr.literal text) := by
  unfold Expr.literal
  split <;> constructor

theorem Expr.shape_literal_ne_not {Operand : Type} (text : List Char) :
    (Expr.literal text : Expr Operand).shape ≠ .not () := by
  unfold Expr.literal
  split <;> nofun

namespace Arena

/-- The expression is derived by `c` to a number.  `told` gives the derivatives of others, and
`nullable` says what is known about empty strings.  Slots of `base` are no new expressions. -/
inductive Derives (base arena : Arena) (nullable : ExprId → Bool → Prop)
    (told : ExprId → ExprId → Prop) (c : Char) (id : ExprId) : Expr ExprId → ExprId → Prop where
  | any : Derives base arena nullable told c id .any .empty
  | empty : Derives base arena nullable told c id .empty .nil
  | nil : Derives base arena nullable told c id .nil .nil
  | char (c' : Char) : Derives base arena nullable told c id (.char c') (if c' = c then .empty else .nil)
  | inRange {low high : Char} {operand value : ExprId} : low ≤ c ∧ c ≤ high →
      arena.slot? operand = some (.expr (.char c)) → told operand value →
      Derives base arena nullable told c id (.range low high) value
  | outOfRange {low high : Char} {value : ExprId} : ¬ (low ≤ c ∧ c ≤ high) → told .nil value →
      Derives base arena nullable told c id (.range low high) value
  | noText {text : String} {value : ExprId} : text.toList = [] → told .empty value →
      Derives base arena nullable told c id (.token text) value
  | lastChar {text : String} {first : Char} {operand value : ExprId} : text.toList = [first] →
      arena.slot? operand = some (.expr (.char first)) → told operand value →
      Derives base arena nullable told c id (.token text) value
  | text {text : String} {first : Char} {rest : List Char} {operand head tail value : ExprId} :
      text.toList = first :: rest → rest ≠ [] →
      arena.slot? operand = some (.expr (.char first)) → told operand head →
      arena.slot? tail = some (.expr (.literal rest)) →
      arena.slot? value = some (.expr (.cat head tail)) →
      Derives base arena nullable told c id (.token text) value
  | alt {left right dl dr value : ExprId} : told (arena.resolve left) dl →
      told (arena.resolve right) dr → arena.slot? value = some (.expr (.alt dl dr)) →
      Derives base arena nullable told c id (.alt left right) value
  | cat {first second head value : ExprId} : told (arena.resolve first) head →
      nullable first false → arena.slot? value = some (.expr (.cat head second)) →
      Derives base arena nullable told c id (.cat first second) value
  | catNullable {first second head cat tail value : ExprId} : told (arena.resolve first) head →
      nullable first true → arena.slot? cat = some (.expr (.cat head second)) →
      told (arena.resolve second) tail → arena.slot? value = some (.expr (.alt cat tail)) →
      Derives base arena nullable told c id (.cat first second) value
  | not {lang rest value : ExprId} : told (arena.resolve lang) rest →
      arena.slot? value = some (.expr (.not rest)) →
      Derives base arena nullable told c id (.not lang) value
  | opt {lang operand value : ExprId} : base.size ≤ operand.number →
      arena.slot? operand = some (.expr (.alt lang .empty)) →
      told operand value → Derives base arena nullable told c id (.opt lang) value
  | plus {lang head star value : ExprId} : told (arena.resolve lang) head →
      arena.slot? star = some (.expr (.star lang)) →
      arena.slot? value = some (.expr (.cat head star)) →
      Derives base arena nullable told c id (.plus lang) value
  | star {lang head value : ExprId} : told (arena.resolve lang) head →
      arena.slot? value = some (.expr (.cat head id)) →
      Derives base arena nullable told c id (.star lang) value
  | never (lang : ExprId) : Derives base arena nullable told c id (.rep lang (.finite 0)) .empty
  | once {lang value : ExprId} : told (arena.resolve lang) value →
      Derives base arena nullable told c id (.rep lang (.finite 1)) value
  | repeated {lang head rest value : ExprId} {times : Nat} : told (arena.resolve lang) head →
      arena.slot? rest = some (.expr (.rep lang (.finite (times + 1)))) →
      arena.slot? value = some (.expr (.cat head rest)) →
      Derives base arena nullable told c id (.rep lang (.finite (times + 2))) value
  | unbounded (lang : ExprId) : Derives base arena nullable told c id (.rep lang .infinite) .nil

namespace Derives

variable {base arena later : Arena} {nullable nullable' : ExprId → Bool → Prop}
  {told told' : ExprId → ExprId → Prop} {c : Char} {id value : ExprId} {e : Expr ExprId}

/-- The arena may grow, and more may be known. -/
theorem grows (derives : base.Derives arena nullable told c id e value)
    (growing : arena.Grows later)
    (sameResolve : ∀ o ∈ e.operands, later.resolve o = arena.resolve o)
    (moreNullable : ∀ o ∈ e.operands, ∀ answer, nullable o answer → nullable' o answer)
    (more : ∀ key answer, told key answer → told' key answer) :
    base.Derives later nullable' told' c id e value := by
  have operand : ∀ {o d}, o ∈ e.operands → told (arena.resolve o) d → told' (later.resolve o) d :=
    fun member isTold => sameResolve _ member ▸ more _ _ isTold
  cases derives with
  | any => exact .any
  | empty => exact .empty
  | nil => exact .nil
  | char c' => exact .char c'
  | inRange inside isChar isTold =>
      exact .inRange inside (growing.expr isChar) (more _ _ isTold)
  | outOfRange outside isTold => exact .outOfRange outside (more _ _ isTold)
  | noText isText isTold => exact .noText isText (more _ _ isTold)
  | lastChar isText isChar isTold =>
      exact .lastChar isText (growing.expr isChar) (more _ _ isTold)
  | text isText nonempty isChar isTold isTail found =>
      exact .text isText nonempty (growing.expr isChar) (more _ _ isTold) (growing.expr isTail)
        (growing.expr found)
  | alt left right found =>
      exact .alt (operand (by simp [Expr.operands]) left) (operand (by simp [Expr.operands]) right)
        (growing.expr found)
  | cat head isNullable found =>
      exact .cat (operand (by simp [Expr.operands]) head)
        (moreNullable _ (by simp [Expr.operands]) _ isNullable) (growing.expr found)
  | catNullable head isNullable isCat tail found =>
      exact .catNullable (operand (by simp [Expr.operands]) head)
        (moreNullable _ (by simp [Expr.operands]) _ isNullable) (growing.expr isCat)
        (operand (by simp [Expr.operands]) tail) (growing.expr found)
  | not isTold found => exact .not (operand (by simp [Expr.operands]) isTold) (growing.expr found)
  | opt isNew isAlt isTold => exact .opt isNew (growing.expr isAlt) (more _ _ isTold)
  | plus head isStar found =>
      exact .plus (operand (by simp [Expr.operands]) head) (growing.expr isStar)
        (growing.expr found)
  | star head found => exact .star (operand (by simp [Expr.operands]) head) (growing.expr found)
  | never lang => exact .never lang
  | once isTold => exact .once (operand (by simp [Expr.operands]) isTold)
  | repeated head isRest found =>
      exact .repeated (operand (by simp [Expr.operands]) head) (growing.expr isRest)
        (growing.expr found)
  | unbounded lang => exact .unbounded lang

theorem mono (moreNullable : ∀ id answer, nullable id answer → nullable' id answer)
    (more : ∀ key answer, told key answer → told' key answer)
    (derives : base.Derives arena nullable told c id e value) :
    base.Derives arena nullable' told' c id e value :=
  derives.grows (.refl arena) (fun _ _ => rfl) (fun o _ => moreNullable o) more

/-- What is exposed was derived; for an option its union with `ε` was. -/
theorem exists_told {empty : ExprId → Prop} {o : ExprId}
    (derives : base.Derives arena nullable told c id e value) (exposes : e.Exposes empty o)
    (decided : ∀ first ∈ e.operands, empty first → ¬ nullable first false) :
    (∃ d, told (arena.resolve o) d) ∨
      ∃ operand d, arena.slot? operand = some (.expr (.alt o .empty)) ∧ told operand d := by
  cases exposes with
  | left | right =>
      cases derives with
      | alt left right _ => exact .inl ⟨_, by assumption⟩
  | first =>
      cases derives with
      | cat head _ _ | catNullable head _ _ _ _ => exact .inl ⟨_, head⟩
  | second _ isEmpty =>
      cases derives with
      | cat _ isNullable _ =>
          exact absurd isNullable (decided _ (by simp [Expr.operands]) isEmpty)
      | catNullable _ _ _ tail _ => exact .inl ⟨_, tail⟩
  | not =>
      cases derives with
      | not isTold _ => exact .inl ⟨_, isTold⟩
  | opt =>
      cases derives with
      | opt _ isAlt isTold => exact .inr ⟨_, _, isAlt, isTold⟩
  | plus =>
      cases derives with
      | plus head _ _ => exact .inl ⟨_, head⟩
  | star =>
      cases derives with
      | star head _ => exact .inl ⟨_, head⟩
  | rep =>
      cases derives with
      | once isTold => exact .inl ⟨_, isTold⟩
      | repeated head _ _ => exact .inl ⟨_, head⟩

/-- The rules make no complement and no repetition without a proper count. -/
theorem flag_le {kind : Expr Unit → Prop} {values : ExprId → Prop}
    (derives : base.Derives arena nullable told c id e value) (wellFormed : arena.WellFormed)
    (wellFormed' : later.WellFormed) (growing : arena.Grows later)
    (few : ∀ operator, kind operator → operator = .not () ∨ ¬ IsCounted operator)
    (tame : (flag kind).Tame base arena later values)
    (below : ∀ key answer, told key answer → values answer → (flag kind).least later key)
    (here : kind e.shape → (flag kind).least later id)
    (operand : ∀ o ∈ e.operands, (flag kind).least later o → (flag kind).least later id)
    (reached : values value) : (flag kind).least later id := by
  have value_iff : ∀ {x e'}, arena.slot? x = some (.expr e') →
      (values x ↔ kind e'.shape ∨ ∃ o ∈ e'.operands, values o) := by
    intro x e' found
    rw [tame.expr (growing.expr found)]
    exact flag_map
  have least_iff : ∀ {x e'}, arena.slot? x = some (.expr e') →
      ((flag kind).least later x ↔ kind e'.shape ∨ ∃ o ∈ e'.operands, (flag kind).least later o) := by
    intro x e' found
    rw [(flag kind).least_expr (growing.expr found)]
    exact flag_map
  have absent : ∀ {operator}, IsCounted operator → operator ≠ .not () → ¬ kind operator := by
    intro operator counted distinct isKind
    rcases few operator isKind with isNot | uncounted
    · exact distinct isNot
    · exact uncounted counted
  have answer : ∀ {o answer}, o ∈ e.operands → told (arena.resolve o) answer → values answer →
      (flag kind).least later id := by
    intro o answer member isTold reached
    refine operand o member ?_
    rw [← (flag kind).least_eq_of_resolve wellFormed' (growing.resolve_resolve wellFormed wellFormed' o)]
    exact below _ answer isTold reached
  have operand_value : ∀ {o}, o ∈ e.operands → values o → (flag kind).least later id :=
    fun member reached => operand _ member (tame.le_least _ reached)
  have no_empty : ¬ (flag kind).least later .empty := by
    rw [least_iff wellFormed.empty]
    exact not_or.mpr ⟨absent ⟨nofun, nofun⟩ nofun, nofun⟩
  have no_nil : ¬ (flag kind).least later .nil := by
    rw [least_iff wellFormed.nil]
    exact not_or.mpr ⟨absent ⟨nofun, nofun⟩ nofun, nofun⟩
  have no_char : ∀ {x c}, arena.slot? x = some (.expr (.char c)) → ¬ (flag kind).least later x := by
    intro x c found
    rw [least_iff found]
    exact not_or.mpr ⟨absent ⟨nofun, nofun⟩ nofun, nofun⟩
  have binary : ∀ {x e' y z}, arena.slot? x = some (.expr e') → e'.operands = [y, z] →
      IsCounted e'.shape → e'.shape ≠ .not () → values x → values y ∨ values z := by
    intro x e' y z found operands counted distinct reached
    rcases (value_iff found).mp reached with isKind | ⟨o, member, reached⟩
    · exact absurd isKind (absent counted distinct)
    · rw [operands, List.mem_pair] at member
      rcases member with rfl | rfl
      · exact .inl reached
      · exact .inr reached
  have unary : ∀ {x e' y}, arena.slot? x = some (.expr e') → e'.operands = [y] →
      values x → kind e'.shape ∨ values y := by
    intro x e' y found operands reached
    rcases (value_iff found).mp reached with isKind | ⟨o, member, reached⟩
    · exact .inl isKind
    · rw [operands, List.mem_singleton] at member
      exact .inr (member ▸ reached)
  cases derives with
  | any | never _ => exact absurd (tame.le_least _ reached) no_empty
  | empty | nil | unbounded _ => exact absurd (tame.le_least _ reached) no_nil
  | char c' =>
      split at reached
      · exact absurd (tame.le_least _ reached) no_empty
      · exact absurd (tame.le_least _ reached) no_nil
  | inRange _ isChar isTold | lastChar _ isChar isTold =>
      exact absurd (below _ _ isTold reached) (no_char isChar)
  | outOfRange _ isTold => exact absurd (below _ _ isTold reached) no_nil
  | noText _ isTold => exact absurd (below _ _ isTold reached) no_empty
  | @text _ _ rest _ _ tail _ _ nonempty isChar isTold isTail found =>
      rcases binary found rfl ⟨nofun, nofun⟩ nofun reached with reached | reached
      · exact absurd (below _ _ isTold reached) (no_char isChar)
      · refine absurd ((value_iff isTail).mp reached) ?_
        rcases Expr.literal_cases rest with ⟨c, isLiteral⟩ | ⟨token, isLiteral⟩ <;> rw [isLiteral]
        · exact not_or.mpr ⟨absent ⟨nofun, nofun⟩ nofun, nofun⟩
        · exact not_or.mpr ⟨absent ⟨nofun, nofun⟩ nofun, nofun⟩
  | @alt left right _ _ _ isLeft isRight found =>
      rcases binary found rfl ⟨nofun, nofun⟩ nofun reached with reached | reached
      · exact answer (by simp [Expr.operands]) isLeft reached
      · exact answer (by simp [Expr.operands]) isRight reached
  | cat isHead _ found =>
      rcases binary found rfl ⟨nofun, nofun⟩ nofun reached with reached | reached
      · exact answer (by simp [Expr.operands]) isHead reached
      · exact operand_value (by simp [Expr.operands]) reached
  | catNullable isHead _ isCat isTail found =>
      rcases binary found rfl ⟨nofun, nofun⟩ nofun reached with reached | reached
      · rcases binary isCat rfl ⟨nofun, nofun⟩ nofun reached with reached | reached
        · exact answer (by simp [Expr.operands]) isHead reached
        · exact operand_value (by simp [Expr.operands]) reached
      · exact answer (by simp [Expr.operands]) isTail reached
  | not isTold found =>
      rcases unary found rfl reached with isNot | reached
      · exact here isNot
      · exact answer (by simp [Expr.operands]) isTold reached
  | opt _ isAlt isTold =>
      rcases (least_iff isAlt).mp (below _ _ isTold reached) with isKind | ⟨o, member, reached⟩
      · exact absurd isKind (absent ⟨nofun, nofun⟩ nofun)
      · rcases List.mem_pair.mp member with rfl | rfl
        · exact operand _ (by simp [Expr.operands]) reached
        · exact absurd reached no_empty
  | plus isHead isStar found =>
      rcases binary found rfl ⟨nofun, nofun⟩ nofun reached with reached | reached
      · exact answer (by simp [Expr.operands]) isHead reached
      · rcases unary isStar rfl reached with isKind | reached
        · exact absurd isKind (absent ⟨nofun, nofun⟩ nofun)
        · exact operand_value (by simp [Expr.operands]) reached
  | star isHead found =>
      rcases binary found rfl ⟨nofun, nofun⟩ nofun reached with reached | reached
      · exact answer (by simp [Expr.operands]) isHead reached
      · exact tame.le_least _ reached
  | once isTold => exact answer (by simp [Expr.operands]) isTold reached
  | repeated isHead isRest found =>
      rcases binary found rfl ⟨nofun, nofun⟩ nofun reached with reached | reached
      · exact answer (by simp [Expr.operands]) isHead reached
      · rcases unary isRest rfl reached with isKind | reached
        · exact absurd isKind (absent ⟨nofun, nofun⟩ nofun)
        · exact operand_value (by simp [Expr.operands]) reached

/-- The rules do not lead above the derivative. -/
theorem words_le {values : ExprId → Language Char} {D : ExprId → Language Char}
    (derives : base.Derives arena nullable told c id e value) (wellFormed : arena.WellFormed)
    (growing : arena.Grows later) (tame : words.Tame base arena later values)
    (noComplement : e.shape ≠ .not ()) (counted : IsCounted e.shape)
    (answer : ∀ o ∈ e.operands, ∀ d, told (arena.resolve o) d → values d ≤ D o)
    (atom : ∀ {o e' d}, arena.slot? o = some (.expr e') → e'.isAtomic = true → told o d →
      values d ≤ (e'.map D).language.leftQuotient [c])
    (option : ∀ {lang o d}, lang ∈ e.operands → arena.slot? o = some (.expr (.alt lang .empty)) →
      told o d → values d ≤ D lang)
    (isNullable : ∀ o ∈ e.operands, nullable o true → [] ∈ words.least later o)
    (same : words.least later id ≤ (e.map (words.least later)).language) :
    values value ≤ (e.map fun o => ⟨words.least later o, D o⟩).derivative c := by
  have value_eq : ∀ {x e'}, arena.slot? x = some (.expr e') →
      values x = words.apply (e'.map values) := fun found => tame.expr (growing.expr found)
  have value_empty : values .empty = 1 := value_eq wellFormed.empty
  have value_nil : values .nil = 0 := value_eq wellFormed.nil
  cases derives with
  | any => exact value_empty.le
  | empty | nil => exact value_nil.le
  | char c' =>
      split
      · rename_i same
        rw [value_empty]
        exact Languages.le_of_forall_mem fun word member => ⟨same, member⟩
      · rw [value_nil]
        exact bot_le
  | inRange inside isChar isTold =>
      refine (atom isChar rfl isTold).trans ?_
      exact Languages.le_of_forall_mem fun word member => ⟨inside.1, inside.2, (List.cons.inj member).2⟩
  | outOfRange _ isTold =>
      exact (atom wellFormed.nil rfl isTold).trans
        (Languages.le_of_forall_mem fun word member => absurd member (Language.notMem_zero _))
  | noText isText isTold =>
      refine (atom wellFormed.empty rfl isTold).trans ?_
      exact Languages.le_of_forall_mem fun word member => absurd member nofun
  | lastChar isText isChar isTold =>
      refine (atom isChar rfl isTold).trans ?_
      exact Languages.le_of_forall_mem fun word member => (show c :: word = _ from member).trans isText.symm
  | @text text first rest operand head tail value isText nonempty isChar isTold isTail found =>
      rw [value_eq found]
      have isRest : values tail = {rest} := by
        rw [value_eq isTail, Expr.map_literal, words_apply (Expr.shape_literal_ne_not rest),
          Expr.language_literal nonempty]
      refine Languages.le_of_forall_mem ?_
      rintro _ ⟨before, inHead, after, inTail, rfl⟩
      have isFirst : c :: before = [first] := atom isChar rfl isTold inHead
      have isRest : after = rest := by rwa [isRest] at inTail
      change c :: (before ++ after) = text.toList
      rw [isText, isRest, ← List.cons_append, isFirst, List.singleton_append]
  | @alt left right _ _ _ isLeft isRight found =>
      rw [value_eq found]
      exact add_le_add (answer left (by simp [Expr.operands]) _ isLeft)
        (answer right (by simp [Expr.operands]) _ isRight)
  | @cat first second _ _ isHead _ found =>
      rw [value_eq found]
      refine le_trans (mul_le_mul' (answer first (by simp [Expr.operands]) _ isHead)
        (tame.le_least second)) ?_
      exact Languages.le_of_forall_mem fun word member => .inl member
  | @catNullable first second _ _ _ _ isHead yes isCat isTail found =>
      rw [value_eq found]
      refine add_le_add ?_ ?_
      · rw [value_eq isCat]
        exact mul_le_mul' (answer first (by simp [Expr.operands]) _ isHead) (tame.le_least second)
      · refine (answer second (by simp [Expr.operands]) _ isTail).trans ?_
        exact Languages.le_of_forall_mem fun word member =>
          ⟨isNullable first (by simp [Expr.operands]) yes, member⟩
  | not _ _ => exact absurd rfl noComplement
  | @opt lang _ _ _ isAlt isTold => exact option (by simp [Expr.operands]) isAlt isTold
  | @plus lang _ _ _ isHead isStar found =>
      rw [value_eq found]
      refine mul_le_mul' (answer lang (by simp [Expr.operands]) _ isHead) ?_
      rw [value_eq isStar]
      exact kstar_mono (tame.le_least lang)
  | @star lang _ _ isHead found =>
      rw [value_eq found]
      exact mul_le_mul' (answer lang (by simp [Expr.operands]) _ isHead)
        ((tame.le_least id).trans same)
  | never lang => exact absurd rfl counted.1
  | @once lang _ isTold =>
      change _ ≤ D lang * words.least later lang ^ 0
      rw [pow_zero, mul_one]
      exact answer lang (by simp [Expr.operands]) _ isTold
  | @repeated lang _ _ _ times isHead isRest found =>
      rw [value_eq found]
      refine mul_le_mul' (answer lang (by simp [Expr.operands]) _ isHead) ?_
      rw [value_eq isRest]
      exact pow_le_pow_left' (tame.le_least lang) (times + 1)
  | unbounded lang => exact absurd rfl counted.2

theorem means_of_atomic {sense : Sense} {derived : ExprId → Expr.Derived}
    (derives : base.Derives arena nullable told c id e value) (atomic : e.isAtomic = true)
    (wellFormed : later.WellFormed) : later.Means sense value ((e.map derived).derivative c) := by
  cases derives with
  | empty | nil => exact wellFormed.means_nil sense
  | char c' =>
      split
      · rename_i same
        convert wellFormed.means_empty sense using 1
        ext word
        exact ⟨And.right, fun isNil => ⟨same, isNil⟩⟩
      · rename_i different
        convert wellFormed.means_nil sense using 1
        ext word
        exact ⟨fun member => absurd member.1 different, fun member => absurd member nofun⟩
  | _ => cases atomic

/-- The answer means the derivative if the answers for the operands mean derivatives. -/
theorem means {sense : Sense} {L R : ExprId → Language Char}
    (derives : base.Derives arena nullable told c id e value) (wellFormed : arena.WellFormed)
    (wellFormed' : later.WellFormed) (growing : arena.Grows later)
    (noComplement : sense = .least → e.shape ≠ .not ()) (counted : IsCounted e.shape)
    (self : later.Means sense id (e.map L).language)
    (operand : ∀ o ∈ e.operands, later.Means sense o (L o))
    (answer : ∀ o ∈ e.operands, ∀ d, told (arena.resolve o) d → later.Means sense d (R o))
    (atom : ∀ {o e' d}, arena.slot? o = some (.expr e') → e'.isAtomic = true → told o d →
      later.Means sense d ((e'.map L).language.leftQuotient [c]))
    (option : ∀ {lang o d}, lang ∈ e.operands → base.size ≤ o.number →
      arena.slot? o = some (.expr (.alt lang .empty)) → told o d → later.Means sense d (R lang))
    (isNullable : ∀ o ∈ e.operands, ∀ answer, nullable o answer → (answer = true ↔ [] ∈ L o)) :
    later.Means sense value ((e.map fun o => ⟨L o, R o⟩).derivative c) := by
  have made : ∀ {x e' E}, arena.slot? x = some (.expr e') → e'.shape ≠ .not () →
      e'.Related (later.Means sense) E → later.Means sense x E.language :=
    fun found distinct related => wellFormed'.means_of_related
      (stands_of_expr (growing.expr found)) (fun _ => distinct) related
  have whenAtomic : e.isAtomic = true → later.Means sense value ((e.map fun o =>
      ⟨L o, R o⟩).derivative c) := fun atomic => derives.means_of_atomic atomic wellFormed'
  cases derives with
  | any => exact wellFormed'.means_empty sense
  | empty | nil | char _ => exact whenAtomic rfl
  | inRange inside isChar isTold =>
      convert atom isChar rfl isTold using 1
      ext word
      exact ⟨fun member => congrArg (c :: ·) member.2.2,
        fun member => ⟨inside.1, inside.2, (List.cons.inj member).2⟩⟩
  | outOfRange outside isTold =>
      convert atom wellFormed.nil rfl isTold using 1
      ext word
      exact ⟨fun member => absurd ⟨member.1, member.2.1⟩ outside, nofun⟩
  | noText isText isTold =>
      convert atom wellFormed.empty rfl isTold using 1
      ext word
      change c :: word = _ ↔ c :: word = []
      rw [isText]
  | lastChar isText isChar isTold =>
      convert atom isChar rfl isTold using 1
      ext word
      change c :: word = _ ↔ c :: word = _
      rw [isText]
  | @text text first rest operand head tail value isText nonempty isChar isTold isTail found =>
      have isHead := atom isChar rfl isTold
      have isTail := made isTail (Expr.shape_literal_ne_not rest) (.literal rest)
      rw [Expr.language_literal nonempty] at isTail
      convert made found nofun (.cat isHead isTail) using 1
      ext word
      change c :: word = text.toList ↔ word ∈ ({[first]} : Language Char).leftQuotient [c] * {rest}
      rw [isText, List.cons.injEq, Language.mem_mul]
      constructor
      · rintro ⟨rfl, rfl⟩
        exact ⟨[], rfl, word, rfl, rfl⟩
      · rintro ⟨before, inHead, after, inTail, rfl⟩
        obtain ⟨sameFirst, isNil⟩ := List.cons.inj (show c :: before = [first] from inHead)
        rw [isNil, List.nil_append]
        exact ⟨sameFirst, inTail⟩
  | @alt left right _ _ _ isLeft isRight found =>
      exact made found nofun (.alt (answer left (by simp [Expr.operands]) _ isLeft)
        (answer right (by simp [Expr.operands]) _ isRight))
  | @cat first second _ _ isHead no found =>
      have isCat := made found nofun (.cat (answer first (by simp [Expr.operands]) _ isHead)
        (operand second (by simp [Expr.operands])))
      convert isCat using 1
      have absent : [] ∉ L first := fun member =>
        absurd ((isNullable first (by simp [Expr.operands]) false no).mpr member) (by simp)
      ext word
      exact ⟨fun member => member.resolve_right fun both => absent both.1, .inl⟩
  | @catNullable first second _ _ _ _ isHead yes isCat isTail found =>
      have isCat := made isCat nofun (.cat (answer first (by simp [Expr.operands]) _ isHead)
        (operand second (by simp [Expr.operands])))
      have isAlt := made found nofun
        (.alt isCat (answer second (by simp [Expr.operands]) _ isTail))
      convert isAlt using 1
      have present := (isNullable first (by simp [Expr.operands]) true yes).mp rfl
      ext word
      exact or_congr_right ⟨And.right, fun member => ⟨present, member⟩⟩
  | @not lang _ _ isTold found =>
      exact wellFormed'.means_of_related (stands_of_expr (growing.expr found)) noComplement
        (.not (answer lang (by simp [Expr.operands]) _ isTold))
  | opt isNew isAlt isTold => exact option (by simp [Expr.operands]) isNew isAlt isTold
  | @plus lang _ _ _ isHead isStar found =>
      exact made found nofun (.cat (answer lang (by simp [Expr.operands]) _ isHead)
        (made isStar nofun (.star (operand lang (by simp [Expr.operands])))))
  | @star lang _ _ isHead found =>
      exact made found nofun (.cat (answer lang (by simp [Expr.operands]) _ isHead) self)
  | never lang => exact absurd rfl counted.1
  | @once lang _ isTold =>
      change later.Means sense _ (R lang * L lang ^ 0)
      rw [pow_zero, mul_one]
      exact answer lang (by simp [Expr.operands]) _ isTold
  | @repeated lang _ _ _ times isHead isRest found =>
      exact made found nofun (.cat (answer lang (by simp [Expr.operands]) _ isHead)
        (made isRest nofun (.rep _ (operand lang (by simp [Expr.operands])))))
  | unbounded lang => exact absurd rfl counted.2

end Derives

end Arena

end Residual
