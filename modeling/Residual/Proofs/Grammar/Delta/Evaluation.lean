import Residual.Grammar.Derivative
import Residual.Proofs.Grammar.Construction

/-!
# Making deltas

The evaluation of a delta ends, with expressions that tell what they should of the empty string,
and all it changes beside the table of deltas is what making expressions and asking for nullability
changes.

While it runs, the keys on the stack are answered with `∅`.  Each of them depends on the key that is
evaluated, so that the answers are right where no two expressions depend on each other.
-/

set_option autoImplicit false

namespace Residual.Grammar

open Memo Eval Interpretation Relation

variable {before state after : Grammar} {key id value : ExprId} {stack : Finset ExprId}
  {told told' : Bool}

/-- The grammar with other deltas. -/
def withDeltas (deltas : Table ExprId ExprId) (grammar : Grammar) : Grammar :=
  { grammar with tables.deltas := deltas }

/-- Only deltas were added since, and what they need; those of the keys on the stack are being
made. -/
structure DeltaRun (before : Grammar) (stack : Finset ExprId) (state : Grammar) : Prop where
  advances : before.Advances (state.withDeltas before.tables.deltas)
  renderings : state.tables.renderings = before.tables.renderings
  derivatives : state.tables.derivatives = before.tables.derivatives
  truncated : state.tables.nullability.truncated = true →
    before.tables.nullability.truncated = true
  singlePass : state.tables.deltas.strategy = .singlePass
  settled : ∀ {id delta : ExprId}, state.tables.deltas.settled[id]? = some delta →
    before.arena.IsDelta state.arena id delta
  running : ∀ id ∈ stack, state.tables.deltas.pending[id]? = some ⟨.nil, .running⟩
  evaluated : ∀ {id : ExprId} {entry : Provisional ExprId},
    state.tables.deltas.pending[id]? = some entry → id ∉ stack →
      entry.phase = .evaluated ∧ before.arena.IsDelta state.arena id entry.value

namespace DeltaRun

theorem wellFormed (run : before.DeltaRun stack state) : state.arena.WellFormed :=
  run.advances.coherent.wellFormed

theorem extending (run : before.DeltaRun stack state) : before.arena.Extends state.arena :=
  run.advances.extending

/-- Before anything is evaluated. -/
theorem of_coherent (coherent : before.Coherent) : before.DeltaRun ∅ before where
  advances := coherent.advances_refl
  renderings := rfl
  derivatives := rfl
  truncated truncated := truncated
  singlePass := coherent.deltas.singlePass
  settled found := coherent.deltas.isDelta found
  running := by simp
  evaluated found := by simp [coherent.deltas.idle] at found

/-- The deltas stay as they are when the grammar is advanced otherwise. -/
theorem advance (run : before.DeltaRun stack state)
    (advances : (state.withDeltas before.tables.deltas).Advances
      (after.withDeltas before.tables.deltas))
    (renderings : after.tables.renderings = state.tables.renderings)
    (derivatives : after.tables.derivatives = state.tables.derivatives)
    (truncated : after.tables.nullability.truncated = true →
      state.tables.nullability.truncated = true)
    (deltas : after.tables.deltas = state.tables.deltas) : before.DeltaRun stack after where
  advances := run.advances.trans advances
  renderings := renderings.trans run.renderings
  derivatives := derivatives.trans run.derivatives
  truncated kept := run.truncated (truncated kept)
  singlePass := deltas ▸ run.singlePass
  settled found := (run.settled (deltas ▸ found)).extends advances.extending run.wellFormed
    advances.coherent.wellFormed
  running := by
    rw [deltas]
    exact run.running
  evaluated found other :=
    (run.evaluated (deltas ▸ found) other).imp_right fun isDelta =>
      isDelta.extends advances.extending run.wellFormed advances.coherent.wellFormed

/-- A change of the table of deltas. -/
theorem change (run : before.DeltaRun stack state) {stack' : Finset ExprId}
    {f : Table ExprId ExprId → Table ExprId ExprId}
    (strategy : (f state.tables.deltas).strategy = state.tables.deltas.strategy)
    (settled : ∀ {id delta : ExprId}, (f state.tables.deltas).settled[id]? = some delta →
      before.arena.IsDelta state.arena id delta)
    (running : ∀ id ∈ stack', (f state.tables.deltas).pending[id]? = some ⟨.nil, .running⟩)
    (evaluated : ∀ {id : ExprId} {entry : Provisional ExprId},
      (f state.tables.deltas).pending[id]? = some entry → id ∉ stack' →
        entry.phase = .evaluated ∧ before.arena.IsDelta state.arena id entry.value) :
    before.DeltaRun stack' (Grammar.deltas.modifyTable f state) where
  advances := run.advances
  renderings := run.renderings
  derivatives := run.derivatives
  truncated := run.truncated
  singlePass := strategy.trans run.singlePass
  settled := settled
  running := running
  evaluated := evaluated

theorem markReentered (run : before.DeltaRun stack state) :
    before.DeltaRun stack (Grammar.deltas.modifyTable Table.markReentered state) :=
  run.change rfl run.settled run.running run.evaluated

theorem startPasses (run : before.DeltaRun stack state) :
    before.DeltaRun stack (Grammar.deltas.modifyTable Table.startPasses state) :=
  run.change rfl run.settled run.running run.evaluated

theorem start (run : before.DeltaRun stack state)
    (fresh : state.tables.deltas.pending[key]? = none) :
    before.DeltaRun (insert key stack) (Grammar.deltas.modifyTable (Table.start key .nil) state) := by
  refine run.change rfl run.settled (fun id member => ?_) fun {id entry} found other => ?_
  · by_cases same : id = key
    · subst same
      rw [Table.pending_start_self, Table.initial, fresh]
      rfl
    · rw [Table.pending_start_of_ne same]
      exact run.running id (Finset.mem_of_mem_insert_of_ne member same)
  · rw [Finset.mem_insert, not_or] at other
    rw [Table.pending_start_of_ne other.1] at found
    exact run.evaluated found other.2

theorem record (run : before.DeltaRun (insert key stack) state) (notOnStack : key ∉ stack)
    (isDelta : before.arena.IsDelta state.arena key value) :
    before.DeltaRun stack (Grammar.deltas.modifyTable (Table.record key value) state) := by
  refine run.change rfl run.settled (fun id member => ?_) fun {id entry} found other => ?_
  · rw [Table.pending_record_of_ne (by rintro rfl; exact notOnStack member)]
    exact run.running id (Finset.mem_insert_of_mem member)
  · by_cases same : id = key
    · subst same
      rw [Table.pending_record_self] at found
      cases found
      exact ⟨rfl, isDelta⟩
    · rw [Table.pending_record_of_ne same] at found
      exact run.evaluated found (by simp [same, other])

/-- At the end everything that was evaluated is settled. -/
theorem commit (run : before.DeltaRun ∅ state) (coherent : before.Coherent) :
    before.Advances (Grammar.deltas.modifyTable Table.commit state) := by
  have isDelta : ∀ {id delta : ExprId},
      state.tables.deltas.commit.settled[id]? = some delta →
        before.arena.IsDelta state.arena id delta := by
    intro id delta found
    rw [Table.settled_commit] at found
    cases was : state.tables.deltas.pending[id]? with
    | none =>
        rw [was] at found
        exact run.settled found
    | some entry =>
        rw [was] at found
        cases found
        exact (run.evaluated was (Finset.notMem_empty id)).2
  have advances := run.advances
  have settled := advances.coherent
  exact
    { coherent :=
        { wellFormed := settled.wellFormed
          fault := settled.fault
          nullability := settled.nullability
          equalities := settled.equalities
          heights := settled.heights
          renderings := settled.renderings
          simplified := settled.simplified.extends rfl (.refl _) settled.wellFormed
            settled.wellFormed id
          derivatives := settled.derivatives.extends rfl (.refl _) settled.wellFormed
            settled.wellFormed id
          deltas := ⟨fun _ => Table.pending_commit, run.singlePass, fun found =>
            (isDelta found).later run.extending coherent.wellFormed run.wellFormed⟩ }
      config := advances.config
      extending := advances.extending
      distinguishes := advances.distinguishes
      nullabilityTruncated := advances.nullabilityTruncated
      equalitiesTruncated := advances.equalitiesTruncated
      normal := fun limit limited normal => (advances.normal limit limited normal).extends
        (limited.trans run.extending.grows.size_le) settled.wellFormed (.refl _) settled.wellFormed
        rfl rfl rfl
      unfolded := fun unfolded =>
        { advances.unfolded unfolded with wellFormed := settled.wellFormed }
      discharges := advances.discharges.trans (.aside rfl rfl) }

end DeltaRun

/-! ## One evaluation -/

/-- The answer tells the truth value and has the tree, and the deltas were made with the same stack. -/
def Told (before : Grammar) (stack : Finset ExprId) (state : Grammar) (Holds : Bool → Tree → Prop)
    (value : ExprId) (after : Grammar) : Prop :=
  before.DeltaRun stack after ∧ state.arena.Extends after.arena ∧
    ∃ told, after.arena.Tells value told ∧ Holds told (after.arena.tree value)

variable {Holds : ExprId → Bool → Tree → Prop} {recur : ExprId → Eval Grammar ExprId}
  {holds holds' : Bool → Tree → Prop}

/-- An answer as it is seen from an earlier state. -/
theorem Told.of_extends {between : Grammar} (extending : state.arena.Extends between.arena)
    (told : before.Told stack between holds value after) : before.Told stack state holds value after :=
  ⟨told.1, extending.trans told.2.1, told.2.2⟩

namespace DeltaRun

section Steps

variable (run : before.DeltaRun stack state)

include run

theorem yields_pure (tells : state.arena.Tells value told)
    (isTold : holds told (state.arena.tree value)) :
    (pure value : Eval Grammar ExprId).Yields state (before.Told stack state holds) :=
  (Eval.yields_pure _ _).mpr ⟨run, .refl _, told, tells, isTold⟩

theorem yields_empty (isTold : holds true (.node .empty)) :
    (pure .empty : Eval Grammar ExprId).Yields state (before.Told stack state holds) := by
  refine run.yields_pure .empty ?_
  rwa [run.wellFormed.tree_empty]

theorem yields_nil (isTold : holds false (.node .nil)) :
    (pure .nil : Eval Grammar ExprId).Yields state (before.Told stack state holds) := by
  refine run.yields_pure .nil ?_
  rwa [run.wellFormed.tree_nil]

/-- An expression is made from two that tell. -/
theorem yields_push {e : Expr ExprId} {x y : ExprId} {told'' : Bool}
    (operands : e.operands = [x, y]) (first : state.arena.Tells x told)
    (second : state.arena.Tells y told')
    (made : ∀ {arena : Arena} {id : ExprId}, arena.slot? id = some (.expr e) →
      arena.Tells x told → arena.Tells y told' → arena.Tells id told'') :
    (liftM (push e) : Eval Grammar ExprId).Yields state (before.Told stack state
      fun told tree => told = told'' ∧ tree = .node (e.map state.arena.tree)) := by
  have inside : ∀ o ∈ e.operands, o.number < state.arena.size := by
    simpa [operands] using ⟨first.lt_size run.wellFormed, second.lt_size run.wellFormed⟩
  obtain ⟨advances, _⟩ := run.advances.coherent.makes_push inside
  have extending := Arena.extends_push state.arena e
  have found := Arena.slot?_push run.wellFormed e
  have tells := made found (first.extends extending) (second.extends extending)
  have wellFormed' : (state.arena.push e).2.WellFormed := advances.coherent.wellFormed
  refine (Eval.yields_lift _ _).mpr
    ⟨run.advance advances rfl rfl id rfl, extending, told'', tells, rfl, ?_⟩
  refine ((tells.closed wellFormed').tree_of_expr found).trans (congrArg Tree.node ?_)
  refine Expr.map_congr fun o member => ?_
  rw [operands] at member
  rcases List.mem_pair.mp member with rfl | rfl
  · exact first.tree_extends extending run.wellFormed wellFormed'
  · exact second.tree_extends extending run.wellFormed wellFormed'

/-- Asking for the nullability of a delta, below which there are no cycles. -/
theorem yields_nullable (tells : state.arena.Tells id told) :
    (computeNullable id).Yields state fun answer after =>
      before.DeltaRun stack after ∧ state.arena.Extends after.arena ∧ answer = told := by
  have coherent := run.advances.coherent
  have inside := tells.lt_size run.wellFormed
  obtain ⟨lang, denotes, isTold⟩ := tells.denotes run.wellFormed
  have grounded := run.wellFormed.grounded_of_denotes denotes
  refine ((yields_computeNullable run.wellFormed (.refl _) coherent.nullability
    inside).and_ensures (keepsUnfolded_nullable inside)).mono ?_
  rintro answer ⟨_, _, _, _, _⟩
    ⟨⟨⟨nullability, rfl, sound, truncated, exhausts, settled⟩, rfl, rfl, rfl⟩, unfolded⟩
  have isNullable := sound.isNullable run.wellFormed settled
  refine ⟨run.advance (coherent.advances_tables sound truncated coherent.equalities
    (fun _ _ kept => kept) (fun kept => kept) (.refl _) (.refl coherent.heights)
    coherent.renderings fun kept => ?_) rfl rfl (exhausts grounded) rfl, .refl _, ?_⟩
  · have shown := unfolded { kept with wellFormed := run.wellFormed }
    exact { shown with wellFormed := shown.wellFormed }
  · rw [Bool.eq_iff_iff, isTold]
    exact isNullable.exact .structural (by rintro ⟨⟩) lang denotes

end Steps

/-- An operator on the deltas of two operands. -/
theorem yields_operator (run : before.DeltaRun stack state)
    (operator : ∀ {Operand : Type}, Operand → Operand → Expr Operand)
    (combine : Bool → Bool → Bool) {first second : Eval Grammar ExprId} (operands : ∀ x y : ExprId, (operator x y).operands = [x, y])
    (map : ∀ (f : ExprId → Tree) (x y : ExprId), (operator x y).map f = operator (f x) (f y))
    (made : ∀ {arena : Arena} {id x y : ExprId} {told told' : Bool},
      arena.slot? id = some (.expr (operator x y)) → arena.Tells x told → arena.Tells y told' →
      arena.Tells id (combine told told'))
    (yields : ∀ {state}, before.DeltaRun stack state →
      first.Yields state (before.Told stack state holds))
    (yields' : ∀ {state}, before.DeltaRun stack state →
      second.Yields state (before.Told stack state holds')) :
    (do push (operator (← first) (← second)) : Eval Grammar ExprId).Yields state
      (before.Told stack state fun told tree => ∃ x t, holds x t ∧ ∃ y t', holds' y t' ∧
        told = combine x y ∧ tree = .node (operator t t')) := by
  simp only [Eval.yields_bind]
  refine (yields run).mono ?_
  rintro left between ⟨run, extending, x, tells, holds⟩
  refine (yields' run).mono ?_
  rintro right later ⟨run', extending', y, tells', holds'⟩
  rw [← tells.tree_extends extending' run.wellFormed run'.wellFormed] at holds
  have tells := tells.extends extending'
  refine (run'.yields_push (operands left right) tells tells' made).mono ?_
  rintro value after ⟨run'', extending'', told, tells, rfl, isTree⟩
  rw [map] at isTree
  exact ⟨run'', (extending.trans extending').trans extending'', _, tells, x, _, holds, y, _, holds',
    rfl, isTree⟩

/-- What the delta of an expression tells is an answer to the equation of nullability, unless the
expression is `.`.  Its tree is made from those of the operands' deltas. -/
theorem yields_deltaStep (run : before.DeltaRun stack state) (wellFormed : before.arena.WellFormed)
    (inside : id.number < before.arena.size)
    (asked : ∀ {state : Grammar} {key : ExprId}, before.DeltaRun stack state →
      before.arena.Consults id key → (recur key).Yields state (before.Told stack state (Holds key))) :
    (deltaStep recur id).Yields state (before.Told stack state fun told tree =>
      (before.arena.Dotless id → (before.arena.nullabilityEquation id).Answers
        (fun key told => ∃ tree, Holds key told tree) told) ∧
      ∀ deltas : ExprId → Tree, (∀ o ∈ (before.arena.get id).operands, ∀ told tree,
        Holds (before.arena.resolve o) told tree → tree = deltas o) →
        tree = Tree.deltaStep ((before.arena.get id).map deltas)) := by
  rw [deltaStep]
  simp only [Eval.yields_bind, Eval.yields_get]
  rw [show state.get id = before.arena.get id from run.extending.get wellFormed inside]
  have asking : ∀ {state : Grammar} {operand : ExprId}, before.DeltaRun stack state →
      operand ∈ (before.arena.get id).operands →
      before.arena.Consults id (before.arena.resolve operand) →
      (recur (state.resolve operand)).Yields state
        (before.Told stack state (Holds (before.arena.resolve operand))) := by
    intro state operand run member consults
    rw [show state.resolve operand = before.arena.resolve operand from
      run.extending.resolve wellFormed (wellFormed.operand_lt_of_get member)]
    exact asked run consults
  unfold Arena.Consults Arena.nullabilityEquation at asking
  unfold Arena.nullabilityEquation
  have dotless : before.arena.Dotless id → (before.arena.get id).shape ≠ .any := fun dotless =>
    (wellFormed.throughout_iff.mp dotless).1
  generalize before.arena.get id = e at asking dotless
  cases e with
  | alt left right =>
      refine (run.yields_operator .alt or (fun _ _ => rfl) (fun _ _ _ => rfl) .alt
        (fun run => asking run (by simp [Expr.operands]) (.bind_left _ (.read _)))
        fun run => asking run (by simp [Expr.operands])
          (.bind_right _ fun _ => .bind_left _ (.read _))).mono ?_
      rintro value after ⟨run, extending, told, tells, x, t, holds, y, t', holds', rfl, isTree⟩
      refine ⟨run, extending, _, tells, fun _ => ?_, fun deltas answers => ?_⟩
      · simp only [Reading.Answers.bind_iff, Reading.Answers.read_iff, Reading.Answers.pure_iff]
        exact ⟨x, ⟨t, holds⟩, y, ⟨t', holds'⟩, rfl⟩
      · rw [isTree, answers left (by simp [Expr.operands]) x t holds,
          answers right (by simp [Expr.operands]) y t' holds']
        rfl
  | cat first second =>
      refine (run.yields_operator .cat and (fun _ _ => rfl) (fun _ _ _ => rfl) .cat
        (fun run => asking run (by simp [Expr.operands]) (.bind_left _ (.read _)))
        fun run => asking run (by simp [Expr.operands])
          (.bind_right _ fun _ => .bind_left _ (.read _))).mono ?_
      rintro value after ⟨run, extending, told, tells, x, t, holds, y, t', holds', rfl, isTree⟩
      refine ⟨run, extending, _, tells, fun _ => ?_, fun deltas answers => ?_⟩
      · simp only [Reading.Answers.bind_iff, Reading.Answers.read_iff, Reading.Answers.pure_iff]
        exact ⟨x, ⟨t, holds⟩, y, ⟨t', holds'⟩, rfl⟩
      · rw [isTree, answers first (by simp [Expr.operands]) x t holds,
          answers second (by simp [Expr.operands]) y t' holds']
        rfl
  | not lang =>
      simp only [Eval.yields_bind, Eval.yields_get]
      refine (asking run (by simp [Expr.operands]) (.bind_left _ (.read _))).mono ?_
      rintro delta between ⟨run, extending, x, tells, holds⟩
      refine (run.yields_nullable tells).mono ?_
      rintro answer later ⟨run', extending', rfl⟩
      have isTold : Reading.Answers (fun key told => ∃ tree, Holds key told tree)
          (do return !(← Reading.read (before.arena.resolve lang))) !answer := by
        simp only [Reading.Answers.bind_iff, Reading.Answers.read_iff, Reading.Answers.pure_iff]
        exact ⟨answer, ⟨_, holds⟩, rfl⟩
      have isTree : ∀ deltas : ExprId → Tree, (∀ o ∈ (Expr.not lang).operands, ∀ told tree,
          Holds (before.arena.resolve o) told tree → tree = deltas o) →
          (if answer then .node .nil else .node .empty) =
            Tree.deltaStep ((Expr.not lang).map deltas) := by
        intro deltas answers
        change _ = if (deltas lang).told then _ else _
        rw [← answers lang (by simp [Expr.operands]) _ _ holds, tells.told_tree run.wellFormed]
      refine Eval.Yields.mono ?_ fun value after => Told.of_extends (extending.trans extending')
      cases answer with
      | true => exact run'.yields_nil ⟨fun _ => isTold, isTree⟩
      | false => exact run'.yields_empty ⟨fun _ => isTold, isTree⟩
  | plus lang =>
      refine (asking run (by simp [Expr.operands]) (.read _)).mono ?_
      rintro value after ⟨run, extending, told, tells, holds⟩
      refine ⟨run, extending, told, tells, fun _ => Reading.Answers.read_iff.mpr ⟨_, holds⟩, ?_⟩
      exact fun deltas answers => answers lang (by simp [Expr.operands]) told _ holds
  | rep lang count =>
      rcases count with (_ | times) | _
      case finite.succ =>
        refine (asking run (by simp [Expr.operands]) (.read _)).mono ?_
        rintro value after ⟨run, extending, told, tells, holds⟩
        refine ⟨run, extending, told, tells, fun _ => Reading.Answers.read_iff.mpr ⟨_, holds⟩, ?_⟩
        exact fun deltas answers => answers lang (by simp [Expr.operands]) told _ holds
      all_goals
        exact run.yields_empty ⟨fun _ => Reading.Answers.pure_iff.mpr rfl, fun _ _ => rfl⟩
  | empty | opt _ | star _ =>
      exact run.yields_empty ⟨fun _ => Reading.Answers.pure_iff.mpr rfl, fun _ _ => rfl⟩
  | any =>
      exact run.yields_nil ⟨fun isDotless => absurd rfl (dotless isDotless), fun _ _ => rfl⟩
  | nil | char _ | range _ _ | token _ =>
      exact run.yields_nil ⟨fun _ => Reading.Answers.pure_iff.mpr rfl, fun _ _ => rfl⟩

/-- The answers from deltas of the operands, where operands whose deltas are being made are answered
with `∅`.  A closed expression is not below itself, so that none of its operands is. -/
theorem describes_of_answers {tree : Tree} (wellFormed : before.arena.WellFormed)
    (resolved : before.arena.resolve key = key)
    (answers : before.arena.Dotless key → (before.arena.nullabilityEquation key).Answers
      (fun other told => ∃ tree, before.arena.Describes other told tree ∨
        told = false ∧ ReflTransGen before.arena.Consults other key) told)
    (isTree : ∀ deltas : ExprId → Tree, (∀ o ∈ (before.arena.get key).operands, ∀ told tree,
      (before.arena.Describes (before.arena.resolve o) told tree ∨
        told = false ∧ ReflTransGen before.arena.Consults (before.arena.resolve o) key) →
      tree = deltas o) → tree = Tree.deltaStep ((before.arena.get key).map deltas)) :
    before.arena.Describes key told tree where
  supports := by
    refine Arena.supports_of_answers wellFormed resolved fun dotless => (answers dotless).mono ?_
    rintro other told ⟨_, describes | onStack⟩
    · exact .inl describes.supports
    · exact .inr onStack
  tree closed := by
    rw [closed.delta_tree]
    refine isTree _ fun o member told tree known => ?_
    have isClosed := closed.of_mem member
    rcases known with describes | ⟨_, path⟩
    · rw [describes.tree isClosed.resolve, isClosed.tree_resolve]
    · have child : before.arena.Child key (before.arena.resolve o) :=
        Arena.mem_operands_iff.mpr ⟨o, member, rfl⟩
      have cycle : TransGen before.arena.Child key key :=
        .head' child (ReflTransGen.mono (fun _ _ consults => consults.child wellFormed) _ _ path)
      exact absurd cycle
        (Arena.not_transGen_of_acc (wellFormed.grounded_resolve.mp closed.grounded))

/-- The evaluation of a key on top of the stack. -/
theorem yields_pass (run : before.DeltaRun (insert key stack) state)
    (wellFormed : before.arena.WellFormed) (inside : key.number < before.arena.size)
    (resolved : before.arena.resolve key = key) (notOnStack : key ∉ stack)
    (paths : ∀ id ∈ stack, ReflTransGen before.arena.Consults id key) {fuel : Nat}
    (nested : ∀ {state : Grammar} {other : ExprId}, before.DeltaRun (insert key stack) state →
      other.number < before.arena.size → before.arena.resolve other = other →
      (∀ id ∈ insert key stack, ReflTransGen before.arena.Consults id other) →
      (Grammar.deltas.solve fuel other).Yields state
        (before.Told (insert key stack) state fun told tree =>
          before.arena.Describes other told tree ∨ told = false ∧ other ∈ insert key stack)) :
    (Grammar.deltas.pass fuel key .nil).Yields state
      (before.Told stack state (before.arena.Describes key)) := by
  have paths : ∀ id ∈ insert key stack, ReflTransGen before.arena.Consults id key := by
    intro id member
    rcases Finset.mem_insert.mp member with rfl | member
    · exact .refl
    · exact paths id member
  have asked : ∀ {state : Grammar} {other : ExprId}, before.DeltaRun (insert key stack) state →
      before.arena.Consults key other → (Grammar.deltas.solve fuel other).Yields state
        (before.Told (insert key stack) state fun told tree =>
          before.arena.Describes other told tree ∨
            told = false ∧ ReflTransGen before.arena.Consults other key) := by
    intro state other run consults
    obtain ⟨o, member, rfl⟩ := Arena.mem_operands_iff.mp (consults.child wellFormed)
    refine (nested run (wellFormed.resolve_lt (wellFormed.operand_lt_of_get member))
      (wellFormed.resolve_resolve o) fun id member => (paths id member).tail consults).mono ?_
    rintro value after ⟨run, extending, told, tells, known⟩
    exact ⟨run, extending, told, tells, known.imp_right fun onStack =>
      onStack.imp_right (paths _)⟩
  unfold Recursion.pass
  simp only [Eval.yields_bind]
  refine (run.yields_deltaStep wellFormed inside asked).mono ?_
  rintro value between ⟨run, extending, told, tells, answers, isTree⟩
  refine (Eval.yields_pure _ _).mpr ((Eval.yields_modify _ _).mpr ((Eval.yields_pure _ _).mpr ?_))
  have describes := describes_of_answers wellFormed resolved answers isTree
  exact ⟨run.record notOnStack ⟨inside, ⟨told, tells, describes.supports⟩, describes.tree⟩,
    extending, told, tells, describes⟩

/-- What is known of a key. -/
theorem lookup_cases (run : before.DeltaRun stack state) (key : ExprId) :
    (∃ value, state.tables.deltas.lookup key = .known value ∧
      before.arena.IsDelta state.arena key value) ∨
    (key ∈ stack ∧ state.tables.deltas.lookup key = .reentrant .nil) ∨
    (key ∉ stack ∧ state.tables.deltas.pending[key]? = none ∧
      state.tables.deltas.lookup key = .unknown) := by
  rcases state.tables.deltas.lookup_cases key with
    ⟨value, settled, isKnown⟩ | ⟨_, value, found, isReentrant⟩ | ⟨_, value, found, isKnown⟩ |
    ⟨_, carried, isUnknown⟩
  · exact .inl ⟨value, isKnown, run.settled settled⟩
  · by_cases onStack : key ∈ stack
    · cases found.symm.trans (run.running key onStack)
      exact .inr (.inl ⟨onStack, isReentrant⟩)
    · cases (run.evaluated found onStack).1
  · by_cases onStack : key ∈ stack
    · cases found.symm.trans (run.running key onStack)
    · exact .inl ⟨value, isKnown, (run.evaluated found onStack).2⟩
  · have notOnStack : key ∉ stack := fun onStack => by
      cases carried _ _ (run.running key onStack)
    refine .inr (.inr ⟨notOnStack, ?_, isUnknown⟩)
    cases found : state.tables.deltas.pending[key]? with
    | none => rfl
    | some entry =>
        cases (carried entry.value entry.phase found).symm.trans
          (run.evaluated found notOnStack).1

/-- The delta of a key.  If the key is on the stack, the answer is `∅`. -/
theorem yields_solve (run : before.DeltaRun stack state) (wellFormed : before.arena.WellFormed)
    (nonempty : stack.Nonempty) {fuel : Nat} (enough : (before.arena.ids \ stack).card < fuel)
    (inside : key.number < before.arena.size) (resolved : before.arena.resolve key = key)
    (paths : ∀ id ∈ stack, ReflTransGen before.arena.Consults id key) :
    (Grammar.deltas.solve fuel key).Yields state (before.Told stack state fun told tree =>
      before.arena.Describes key told tree ∨ told = false ∧ key ∈ stack) := by
  induction fuel generalizing state stack key with
  | zero => exact absurd enough (Nat.not_lt_zero _)
  | succ fuel inductionHypothesis =>
      rcases run.lookup_cases key with
        ⟨value, isKnown, isDelta⟩ | ⟨onStack, isReentrant⟩ | ⟨notOnStack, fresh, isUnknown⟩
      · obtain ⟨told, tells, supports⟩ := isDelta.tells
        exact (Recursion.yields_solve_known isKnown).mpr
          ⟨run, .refl _, told, tells, .inl ⟨supports, isDelta.tree⟩⟩
      · exact (Recursion.yields_solve_reentrant isReentrant).mpr ⟨run.markReentered, .refl _, false,
          Arena.Tells.nil, .inr ⟨rfl, onStack⟩⟩
      · have inUse : state.tables.deltas.inUse = true := by
          obtain ⟨id, onStack⟩ := nonempty
          refine Bool.eq_true_of_not_eq_false fun idle => ?_
          cases (Table.not_inUse_iff.mp idle id).symm.trans (run.running id onStack)
        have fewer : (before.arena.ids \ insert key stack).card < fuel := by
          rw [Finset.sdiff_insert]
          refine Nat.lt_of_lt_of_le (Finset.card_erase_lt_of_mem ?_) (Nat.le_of_lt_succ enough)
          exact Finset.mem_sdiff.mpr ⟨Arena.mem_ids.mpr inside, notOnStack⟩
        refine (Recursion.yields_solve_nested isUnknown inUse).mpr ((Eval.yields_pure _ _).mpr ?_)
        refine ((run.start fresh).yields_pass wellFormed inside resolved notOnStack paths
          fun run => inductionHypothesis run (Finset.insert_nonempty key stack) fewer).mono ?_
        rintro value after ⟨run, extending, told, tells, describes⟩
        exact ⟨run, extending, told, tells, .inl describes⟩

end DeltaRun

/-- What a delta leaves of a grammar. -/
structure Reduces (before : Grammar) (id delta : ExprId) (after : Grammar) : Prop where
  advances : before.Advances after
  renderings : after.tables.renderings = before.tables.renderings
  derivatives : after.tables.derivatives = before.tables.derivatives
  truncated : after.tables.nullability.truncated = true →
    before.tables.nullability.truncated = true
  isDelta : before.arena.IsDelta after.arena (before.arena.resolve id) delta

/-- A delta is made of every expression. -/
theorem Coherent.yields_computeDelta (coherent : before.Coherent)
    (inside : id.number < before.arena.size) :
    (computeDelta id).Yields before (before.Reduces id) := by
  have wellFormed := coherent.wellFormed
  have run := DeltaRun.of_coherent coherent
  have inside' := wellFormed.resolve_lt inside
  have resolved := wellFormed.resolve_resolve id
  unfold computeDelta
  simp only [Eval.yields_bind, Eval.yields_get]
  rcases run.lookup_cases (before.arena.resolve id) with
    ⟨value, isKnown, isDelta⟩ | ⟨onStack, _⟩ | ⟨notOnStack, fresh, isUnknown⟩
  · exact (Recursion.yields_solve_known isKnown).mpr ⟨coherent.advances_refl, rfl, rfl, fun truncated => truncated, isDelta⟩
  · cases onStack
  · have idle := Table.not_inUse_iff.mpr coherent.deltas.idle
    refine (Recursion.yields_solve_outermost isUnknown idle).mpr ((Eval.yields_pure _ _).mpr ?_)
    have started := run.startPasses.start fresh
    have fewer : (before.arena.ids \ insert (before.arena.resolve id) ∅).card <
        before.arena.size := by
      rw [insert_empty_eq, Finset.sdiff_singleton_eq_erase]
      exact (Finset.card_erase_lt_of_mem (Arena.mem_ids.mpr inside')).trans_le
        before.arena.card_ids_le
    have pass := started.yields_pass wellFormed inside' resolved notOnStack (by simp) fun run =>
      run.yields_solve wellFormed (Finset.insert_nonempty _ _) fewer
    change (Grammar.deltas.passes _ _ before.tables.deltas.strategy.repetitions).Yields _ _
    rw [coherent.deltas.singlePass]
    refine Recursion.yields_passes_singlePass (pass.mono ?_)
    rintro value after ⟨run, _, told, tells, describes⟩
    exact ⟨run.singlePass, run.commit coherent, run.renderings, run.derivatives, run.truncated,
      inside', ⟨told, tells, describes.supports⟩, describes.tree⟩

/-- The delta of an expression. -/
theorem Coherent.reduces (coherent : before.Coherent) (inside : id.number < before.arena.size) :
    Gives (delta id) before (before.Reduces id) :=
  (coherent.yields_computeDelta inside).settle .nil

end Residual.Grammar
