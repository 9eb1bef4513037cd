import Mathlib.Logic.Relation
import Residual.Proofs.Grammar.NormalForm.Warnings
import Residual.Proofs.Grammar.Reachable

/-!
# Calls as transitions

What calls do, seen from three tables: those of the renderings, of the deltas and of the
derivatives.  A call is a sequence of transitions.  Each of them asks one of these tables, or adds
slots and leaves the three as they are, or defines links and empties all tables.

What is known of one of the three tables in every grammar that calls can lead to is then a matter
of the one transition that asks it.
-/

set_option autoImplicit false

namespace Residual

/-- The strategies of all tables. -/
def Tables.strategies (tables : Tables) : List Memo.Strategy :=
  [tables.nullability.strategy, tables.heights.strategy, tables.equalities.strategy,
    tables.renderings.strategy, tables.derivatives.strategy, tables.deltas.strategy,
    tables.simplified.strategy]

namespace Grammar

open Memo Relation

variable {before after grammar : Grammar} {id x y : ExprId} {Answer Result : Type}

/-- The tables that are changed by questions of their own only, and what no question changes. -/
structure Untouched (before after : Grammar) : Prop where
  renderings : after.tables.renderings = before.tables.renderings
  deltas : after.tables.deltas = before.tables.deltas
  derivatives : after.tables.derivatives = before.tables.derivatives
  strategies : after.tables.strategies = before.tables.strategies

theorem Untouched.refl (grammar : Grammar) : grammar.Untouched grammar :=
  ⟨rfl, rfl, rfl, rfl⟩

theorem Untouched.trans ⦃first second third : Grammar⦄ (earlier : first.Untouched second)
    (later : second.Untouched third) : first.Untouched third :=
  ⟨later.renderings.trans earlier.renderings, later.deltas.trans earlier.deltas,
    later.derivatives.trans earlier.derivatives, later.strategies.trans earlier.strategies⟩

theorem Untouched.of_eq (same : after.tables = before.tables) : before.Untouched after := by
  constructor <;> rw [same]

/-- Slots were added, and nothing happened to the three tables. -/
structure Widens (before after : Grammar) : Prop where
  grows : before.Grows after
  extending : before.arena.Extends after.arena
  nullabilityTruncated : before.tables.nullability.truncated = true →
    after.tables.nullability.truncated = true
  untouched : before.Untouched after

theorem Advances.widens (advances : before.Advances after) (untouched : before.Untouched after) :
    before.Widens after :=
  ⟨advances.grows, advances.extending, advances.nullabilityTruncated, untouched⟩

/-- A part of a call. -/
inductive Transition (before : Grammar) : Grammar → Prop where
  | widen {after : Grammar} : before.Widens after → Transition before after
  | render {id : ExprId} : id.number < before.arena.size →
      Transition before (Grammar.render id before).2
  | delta {id : ExprId} : id.number < before.arena.size →
      Transition before (Grammar.delta id before).2
  | derive {id : ExprId} (c : Char) : id.number < before.arena.size →
      Transition before (deriveDefined id c before).2
  /-- Links may have been defined. -/
  | renew {after : Grammar} : before.Grows after → after.tables = .empty after.config.fixpoint →
      Transition before after

/-- The later grammar comes from the earlier one by transitions. -/
abbrev Transitions : Grammar → Grammar → Prop :=
  ReflTransGen Transition

theorem Advances.transitions (advances : before.Advances after)
    (untouched : before.Untouched after) : before.Transitions after :=
  .single (.widen (advances.widens untouched))

/-! ## Constructors -/

/-- Wherever the computation starts, it leaves all tables as they are. -/
def Spares (computation : StateM Grammar Answer) : Prop :=
  ∀ grammar, Gives computation grammar fun _ after => after.tables = grammar.tables

theorem Spares.bind {computation : StateM Grammar Answer} {next : Answer → StateM Grammar Result}
    (first : Spares computation) (rest : ∀ answer, Spares (next answer)) :
    Spares (computation >>= next) :=
  fun grammar => (gives_bind _ _ _).mpr ((first grammar).mono fun answer between untouched =>
    (rest answer between).mono fun _ _ untouched' => untouched'.trans untouched)

theorem spares_pure (answer : Answer) : Spares (pure answer) :=
  fun _ => rfl

theorem spares_push (e : Expr ExprId) : Spares (push e) :=
  fun _ => rfl

theorem spares_token (text : String) : Spares (token text) := by
  unfold token
  split
  · exact spares_push _
  · exact Spares.bind (fun _ => rfl) fun _ => spares_push _

theorem spares_operand (lang : Operand) : Spares (operand lang) := by
  cases lang with
  | expr id => exact spares_pure id
  | char c => exact spares_push _
  | text text => exact spares_token text

theorem spares_range (low high : Char) : Spares (range low high) := by
  unfold range
  split
  · exact spares_pure _
  · exact (spares_push _).bind fun _ => spares_pure _

/-- A new expression above given ones. -/
theorem spares_unary (e : ExprId → Expr ExprId) (lang : Operand) :
    Spares (do Grammar.push (e (← operand lang))) :=
  (spares_operand lang).bind fun _ => spares_push _

theorem spares_binary (e : ExprId → ExprId → Expr ExprId) (left right : Operand) :
    Spares (do
      let left ← operand left
      let right ← operand right
      Grammar.push (e left right)) :=
  (spares_operand left).bind fun _ => (spares_operand right).bind fun _ => spares_push _

theorem spares_fold {combine : ExprId → Operand → StateM Grammar ExprId}
    (spares : ∀ left right, Spares (combine left right)) (rest : List Operand) (id : ExprId) :
    Spares (rest.foldlM combine id) := by
  induction rest generalizing id with
  | nil => exact spares_pure id
  | cons operand rest inductionHypothesis => exact (spares id operand).bind inductionHypothesis

theorem spares_choice (langs : List Operand) : Spares (choice langs) := by
  cases langs with
  | nil => exact spares_pure _
  | cons first rest =>
      exact (spares_operand first).bind (spares_fold (fun _ _ => spares_binary .alt _ _) rest)

theorem spares_seq (langs : List Operand) : Spares (Grammar.seq langs) := by
  cases langs with
  | nil => exact spares_pure _
  | cons first rest =>
      exact (spares_operand first).bind (spares_fold (fun _ _ => spares_binary .cat _ _) rest)

/-! ## Questions -/

/-- An analysis changes its own table. -/
theorem keeps_untouched_analysis {Key Value : Type} [BEq Key] [Hashable Key] [BEq Value]
    {table : Tables → Table Key Value}
    {modifyTable : (Table Key Value → Table Key Value) → Tables → Tables}
    (elsewhere : ∀ f, (∀ table, (f table).strategy = table.strategy) → ∀ grammar : Grammar,
      grammar.Untouched { grammar with tables := modifyTable f grammar.tables })
    (bottom : Value) (equation : Arena → Key → Reading Key Value Value) (fuel : Nat) (key : Key) :
    Keeps Untouched ((analysis table modifyTable bottom equation).solve fuel key) := by
  have preserves : (analysis table modifyTable bottom equation).Preserves Untouched :=
    { refl := .refl
      trans := .trans
      modifyTable := elsewhere
      noteRepeated := fun _ => ⟨rfl, rfl, rfl, rfl⟩
      noteExhausted := fun _ _ => ⟨rfl, rfl, rfl, rfl⟩
      bottom := fun _ => keeps_pure .refl _
      step := fun keeps key => keeps_get_bind fun state =>
        keeps_run .refl .trans keeps (equation state.arena key)
      finish := fun _ _ value => keeps_pure .refl value }
  exact preserves.keeps_solve fuel key

theorem keeps_untouched_nullable (id : ExprId) : Keeps Untouched (computeNullable id) :=
  keeps_get_bind fun _ => keeps_untouched_analysis
    (fun _ keeps _ => ⟨rfl, rfl, rfl, by simp [Tables.strategies, keeps]⟩) _ _ _ _

theorem keeps_untouched_height (id : ExprId) : Keeps Untouched (computeHeight id) :=
  keeps_get_bind fun _ => keeps_untouched_analysis
    (fun _ keeps _ => ⟨rfl, rfl, rfl, by simp [Tables.strategies, keeps]⟩) _ _ _ _

theorem keeps_untouched_equal (x y : ExprId) : Keeps Untouched (computeEqual x y) :=
  keeps_get_bind fun _ => keeps_untouched_analysis
    (fun _ keeps _ => ⟨rfl, rfl, rfl, by simp [Tables.strategies, keeps]⟩) _ _ _ _

theorem simplificationKeeps_untouched : SimplificationKeeps Untouched where
  refl := .refl
  trans := .trans
  push _ := keeps_lift _ fun _ => ⟨rfl, rfl, rfl, rfl⟩
  height := keeps_untouched_height
  equal := keeps_untouched_equal

theorem keeps_untouched_simplified (id : ExprId) : Keeps Untouched (computeSimplified id) := by
  have preserves : simplifications.Preserves Untouched :=
    { refl := .refl
      trans := .trans
      modifyTable := fun _ keeps _ =>
        ⟨rfl, rfl, rfl, by simp [simplifications, transformation, Tables.strategies, keeps]⟩
      noteRepeated := fun _ => ⟨rfl, rfl, rfl, rfl⟩
      noteExhausted := fun _ _ => ⟨rfl, rfl, rfl, rfl⟩
      bottom := fun _ => keeps_lift reserve fun _ => ⟨rfl, rfl, rfl, rfl⟩
      step := simplificationKeeps_untouched.simplifyStep
      finish := fun _ link value => Keeps.bind Untouched.trans
        (keeps_lift (bindLink link value) fun _ => ⟨rfl, rfl, rfl, rfl⟩) fun _ =>
          keeps_pure .refl value }
  exact keeps_get_bind fun _ => preserves.keeps_solve _ _

namespace Coherent

variable (coherent : grammar.Coherent)

include coherent

theorem widens_journal (journal : Journal) : grammar.Widens { grammar with journal } :=
  (coherent.advances_journal journal).widens ⟨rfl, rfl, rfl, rfl⟩

theorem nullable_widens (inside : id.number < grammar.arena.size) :
    Gives (nullable id) grammar fun _ after => grammar.Widens after :=
  (((coherent.yields_nullable inside).and_ensures (keeps_untouched_nullable id grammar)).settle
    false).mono fun _ _ both => both.1.1.widens both.2

theorem height_widens (inside : id.number < grammar.arena.size) :
    Gives (Grammar.height id) grammar fun _ after => grammar.Widens after :=
  ((coherent.height inside).and ((((yields_computeHeight coherent.wellFormed coherent.heights
    inside).and_ensures (keeps_untouched_height id grammar)).settle 0).mono
      fun _ _ both => both.2)).mono fun _ _ both => both.1.widens both.2

theorem equal_widens (inside : x.number < grammar.arena.size)
    (inside' : y.number < grammar.arena.size) :
    Gives (Grammar.equal x y) grammar fun _ after => grammar.Widens after :=
  ((coherent.equal inside inside').and
    (coherent.equal_keeps inside inside' (keeps_untouched_equal x y))).mono
      fun _ _ both => both.1.1.widens both.2

theorem simplify_widens (inside : id.number < grammar.arena.size) :
    Gives (Grammar.simplify id) grammar fun _ after => grammar.Widens after :=
  ((coherent.simplify inside).and
    (coherent.simplify_keeps inside (keeps_untouched_simplified id))).mono
      fun _ _ both => both.1.1.advances.widens both.2

/-- The rounds of a canonicalization, and its report. -/
theorem canonicalize_untouched (inside : id.number < grammar.arena.size) :
    Gives (Grammar.canonicalize id) grammar fun _ after => grammar.Untouched after := by
  refine (gives_bind _ _ _).mpr ((gives_get _).mpr ((gives_bind _ _ _).mpr ?_))
  refine (coherent.simplifyWithin_keeps inside simplificationKeeps_untouched
    keeps_untouched_simplified _ 0).mono fun result between untouched => ?_
  split
  all_goals exact untouched.trans ⟨rfl, rfl, rfl, rfl⟩

theorem canonicalize_widens (inside : id.number < grammar.arena.size) :
    Gives (Grammar.canonicalize id) grammar fun _ after => grammar.Widens after :=
  ((coherent.canonicalize inside).and (coherent.canonicalize_untouched inside)).mono
    fun _ _ both => both.1.1.advances.widens both.2

/-! ## Reading a text -/

/-- A rendering for the journal. -/
theorem gives_reported_transitions (inside : id.number < grammar.arena.size)
    {event : String → Event} {next : StateM Grammar Answer} {post : Answer → Grammar → Prop}
    {start : Grammar} (begun : start.Transitions grammar)
    (onward : ∀ {after : Grammar}, start.Transitions after → grammar.Advances after →
      Gives next after post) :
    Gives (do
      if (← get).journal.recording then
        let rendering ← Grammar.render id
        modify (note (event rendering))
      next) grammar post := by
  refine (gives_bind _ _ _).mpr ((gives_get _).mpr ?_)
  split
  · have rendered : start.Transitions (Grammar.render id grammar).2 := begun.tail (.render inside)
    have advances : grammar.Advances (Grammar.render id grammar).2 := coherent.render inside
    have noted := advances.coherent.advances_journal
    exact onward (rendered.tail (.widen ((noted _).widens ⟨rfl, rfl, rfl, rfl⟩)))
      (advances.trans (noted _))
  · exact onward begun coherent.advances_refl

theorem consume_transitions (inside : id.number < grammar.arena.size) {start : Grammar}
    (begun : start.Transitions grammar) (rest : List Char) (offset : Nat) :
    Gives (Grammar.consume id offset rest) grammar fun _ last => start.Transitions last := by
  induction rest generalizing grammar id offset with
  | nil => exact begun
  | cons c rest inductionHypothesis =>
      have onward : ∀ {between : Grammar} {next : ExprId}, between.Coherent →
          start.Transitions between → next.number < between.arena.size →
          Gives (do
            if (← get).journal.recording then
              let rendering ← Grammar.render next
              modify (note (.residual c offset rendering))
            Grammar.consume next (offset + c.utf8Size) rest) between
            fun _ last => start.Transitions last := by
        intro between next coherent begun inside
        exact coherent.gives_reported_transitions inside begun fun begun advances =>
          inductionHypothesis advances.coherent (advances.lt_size inside) begun _
      unfold Grammar.consume
      refine (gives_bind _ _ _).mpr ((gives_get _).mpr ?_)
      split
      · exact (gives_pure _ _).mpr begun
      · have derived : start.Transitions (Grammar.deriveDefined id c grammar).2 :=
          begun.tail (.derive c inside)
        have derives : Gives (Grammar.deriveDefined id c) grammar fun result after =>
            grammar.Derives id c result after ∧ start.Transitions after :=
          ⟨coherent.deriveDefined inside, derived⟩
        refine (gives_bind _ _ _).mpr (derives.mono ?_)
        rintro (error | next) between ⟨derives, derived⟩
        · exact (gives_pure _ _).mpr derived
        · have inside := (derives.isDerivative rfl).1
          have coherent := derives.advances.coherent
          refine (gives_bind _ _ _).mpr ((gives_get _).mpr ?_)
          split
          · refine (gives_bind _ _ _).mpr (((coherent.canonicalize inside).and
              (coherent.canonicalize_widens inside)).mono ?_)
            rintro value between' ⟨⟨normalizes, _⟩, widens⟩
            exact onward widens.grows.coherent (derived.tail (.widen widens)) normalizes.inside
          · exact onward coherent derived inside

theorem accepts_transitions (lang : Operand) (text : String)
    (inside : ∀ id ∈ lang.ids, id.number < grammar.arena.size) :
    Gives (Grammar.accepts lang text) grammar fun _ last => grammar.Transitions last := by
  refine (gives_bind _ _ _).mpr (((coherent.makes_operand lang inside).and
    (spares_operand lang grammar)).mono ?_)
  rintro id between ⟨⟨advances, inside⟩, same⟩
  have begun := advances.transitions (.of_eq same)
  have coherent := advances.coherent
  refine (gives_bind _ _ _).mpr ((gives_get _).mpr ?_)
  split
  · exact (gives_pure _ _).mpr begun
  · refine (gives_bind _ _ _).mpr (((coherent.canonicalize inside).and
      (coherent.canonicalize_widens inside)).mono ?_)
    rintro start canonical ⟨⟨normalizes, _⟩, widens⟩
    have coherent := widens.grows.coherent
    refine (gives_bind _ _ _).mpr (((coherent.consume normalizes.inside _ 0).and
      (coherent.consume_transitions normalizes.inside (begun.tail (.widen widens)) _ 0)).mono ?_)
    rintro result consumed ⟨⟨advances, lastInside, _⟩, begun⟩
    have coherent := advances.coherent
    match result with
    | .error error => exact (gives_pure _ _).mpr begun
    | .ok (.rejected offset) => exact begun.tail (.widen (coherent.widens_journal _))
    | .ok (.residual last) =>
        have decided : ∀ {later : Grammar} {last : ExprId}, later.Coherent →
            grammar.Transitions later → last.number < later.arena.size →
            Gives (do
              let accepted ← nullable last
              modify (note (.decided id text accepted))
              return (.ok accepted : Except Error Bool)) later
              fun _ last => grammar.Transitions last := by
          intro later last coherent begun inside
          refine (gives_bind _ _ _).mpr ((coherent.nullable_widens inside).mono ?_)
          intro accepted asked widens
          exact (begun.tail (.widen widens)).tail (.widen (widens.grows.coherent.widens_journal _))
        refine (gives_bind _ _ _).mpr ((gives_get _).mpr ?_)
        split
        · exact decided coherent begun (lastInside rfl)
        · refine (gives_bind _ _ _).mpr (((coherent.canonicalize (lastInside rfl)).and
            (coherent.canonicalize_widens (lastInside rfl))).mono ?_)
          rintro value later ⟨⟨normalizes, _⟩, widens⟩
          exact decided widens.grows.coherent (begun.tail (.widen widens)) normalizes.inside

omit coherent in
theorem derivative_transitions (inside : id.number < grammar.arena.size) (c : Char) :
    Gives (Grammar.derivative id c) grammar fun _ last => grammar.Transitions last := by
  refine (gives_bind _ _ _).mpr ((gives_get _).mpr ?_)
  split
  · exact (gives_pure _ _).mpr .refl
  · exact .single (.derive c inside)

/-! ## Calls -/

theorem define_transitions {link : ExprId} (lang : Operand)
    (inside : ∀ id ∈ lang.ids, id.number < grammar.arena.size) :
    Gives (Grammar.define link lang) grammar fun _ after => grammar.Transitions after := by
  refine (gives_bind _ _ _).mpr (((coherent.makes_operand lang inside).and
    (spares_operand lang grammar)).mono ?_)
  rintro target made ⟨⟨advances, inside⟩, same⟩
  have begun := advances.transitions (.of_eq same)
  refine (gives_bind _ _ _).mpr ((gives_get _).mpr ?_)
  split
  · exact (gives_pure _ _).mpr begun
  · refine (gives_bind _ _ _).mpr ?_
    by_cases unbound : made.arena.slot? link = some (.link none)
    · have wasUnbound : (bindLink link target made).1 = true := (Arena.bind_of_unbound unbound).1
      unfold Gives
      rw [wasUnbound]
      exact begun.tail (.renew (advances.coherent.grows_bind unbound inside) rfl)
    · unfold Gives
      rw [bindLink_of_not_unbound unbound]
      exact begun

theorem tie_transitions {link target : ExprId} (inside : target.number < grammar.arena.size) :
    Gives (Grammar.tie link target) grammar fun _ after => grammar.Transitions after :=
  .single (.renew (coherent.tie inside) rfl)

/-- Every call is a sequence of transitions. -/
theorem transitions_run (call : Call)
    (inside : ∀ id ∈ call.ids, id.number < grammar.arena.size) :
    grammar.Transitions (call.run grammar).2 := by
  have given : ∀ {id}, call.ids = [id] → id.number < grammar.arena.size := fun same =>
    inside _ (by simp [same])
  have constructs : ∀ {computation : StateM Grammar ExprId}, Spares computation →
      grammar.Advances (computation grammar).2 → grammar.Transitions (computation grammar).2 :=
    fun spares advances => advances.transitions (.of_eq (spares grammar))
  have advances : call.defines = false → call ≠ .declare → call ≠ .clearTables →
      grammar.Advances (call.run grammar).2 := coherent.advances_run call inside
  cases call with
  | operand lang => exact constructs (spares_operand lang) (advances rfl nofun nofun)
  | token text => exact constructs (spares_token text) (advances rfl nofun nofun)
  | range low high =>
      exact (advances rfl nofun nofun).transitions (.of_eq (spares_range low high grammar))
  | alt left right => exact constructs (spares_binary .alt left right) (advances rfl nofun nofun)
  | cat first second => exact constructs (spares_binary .cat first second) (advances rfl nofun nofun)
  | not lang => exact constructs (spares_unary .not lang) (advances rfl nofun nofun)
  | opt lang => exact constructs (spares_unary .opt lang) (advances rfl nofun nofun)
  | plus lang => exact constructs (spares_unary .plus lang) (advances rfl nofun nofun)
  | star lang => exact constructs (spares_unary .star lang) (advances rfl nofun nofun)
  | rep lang count => exact constructs (spares_unary (.rep · count) lang) (advances rfl nofun nofun)
  | choice langs => exact constructs (spares_choice langs) (advances rfl nofun nofun)
  | seq langs => exact constructs (spares_seq langs) (advances rfl nofun nofun)
  | declare =>
      have extending := Arena.extends_reserve grammar.arena
      exact .single (.widen ⟨coherent.declare, extending, fun kept => kept, .of_eq rfl⟩)
  | define link lang =>
      exact coherent.define_transitions lang fun id member => inside id (by simp [Call.ids, member])
  | tie link target => exact coherent.tie_transitions (inside target (by simp [Call.ids]))
  | clearTables => exact .single (.renew coherent.clearTables rfl)
  | nullable id => exact .single (.widen (coherent.nullable_widens (given rfl)))
  | equal x y =>
      exact .single (.widen (coherent.equal_widens (inside x (by simp [Call.ids]))
        (inside y (by simp [Call.ids]))))
  | height id => exact .single (.widen (coherent.height_widens (given rfl)))
  | render id => exact .single (.render (given rfl))
  | simplify id => exact .single (.widen (coherent.simplify_widens (given rfl)))
  | canonicalize id => exact .single (.widen (coherent.canonicalize_widens (given rfl)))
  | delta id => exact .single (.delta (given rfl))
  | derivative id c => exact derivative_transitions (given rfl) c
  | derivativeOfText id text =>
      change Gives (Grammar.derivativeOfText id text) grammar fun _ last => grammar.Transitions last
      unfold Grammar.derivativeOfText
      split
      · exact derivative_transitions (given rfl) _
      · exact (gives_pure _ _).mpr .refl
  | accepts lang text => exact coherent.accepts_transitions lang text inside
  | record journal => exact .single (.widen (coherent.widens_journal journal))

end Coherent

/-! ## Reachable grammars -/

/-- A transition keeps a grammar coherent. -/
theorem Transition.grows (transition : before.Transition after) (coherent : before.Coherent) :
    before.Grows after := by
  cases transition with
  | widen widens => exact widens.grows
  | render inside => exact (coherent.render inside).grows
  | delta inside => exact (coherent.reduces inside).advances.grows
  | derive c inside => exact (coherent.deriveDefined inside).advances.grows
  | renew grows _ => exact grows

/-- What every transition between coherent grammars keeps is kept by sequences of them. -/
theorem Coherent.transitions_keep {Holds : Grammar → Prop} (coherent : before.Coherent)
    (transitions : before.Transitions after)
    (keeps : ∀ {before after : Grammar}, before.Coherent → before.Transition after →
      Holds before → Holds after) (holds : Holds before) : after.Coherent ∧ Holds after := by
  induction transitions with
  | refl => exact ⟨coherent, holds⟩
  | tail _ transition inductionHypothesis =>
      obtain ⟨coherent, holds⟩ := inductionHypothesis
      exact ⟨(transition.grows coherent).coherent, keeps coherent transition holds⟩

theorem Coherent.evolves_transitions (coherent : before.Coherent) (evolves : before.Evolves after) :
    before.Transitions after := by
  induction evolves with
  | refl => exact .refl
  | call call earlier inside inductionHypothesis =>
      exact inductionHypothesis.trans
        ((coherent.evolves earlier).coherent.transitions_run call inside)

/-- What holds of new grammars and is kept by every transition holds of all that calls lead to. -/
theorem Reachable.of_transitions {Holds : Grammar → Prop} (reachable : grammar.Reachable)
    (keeps : ∀ {before after : Grammar}, before.Coherent → before.Transition after →
      Holds before → Holds after) (holds : ∀ config, Holds (ofConfig config)) : Holds grammar := by
  obtain ⟨config, evolves⟩ := reachable
  have coherent := Coherent.ofConfig config
  exact (coherent.transitions_keep (coherent.evolves_transitions evolves) keeps (holds config)).2

end Grammar

end Residual
