import Residual.Proofs.Grammar.Delta.Collapse
import Residual.Proofs.Grammar.Derivative.Closed
import Residual.Proofs.Grammar.Failures
import Residual.Proofs.Grammar.Legibility
import Residual.Proofs.Grammar.NormalForm.Convergence
import Residual.Proofs.Grammar.Questions

/-!
# Replies depend on trees

Closed expressions may share operands, go through references and have any numbers.  The replies to a
question about them depend on their trees only, so that equal expressions have the same replies, up
to which numbers the answers have.

Simplified forms and heights are looked up in tables that are not emptied when a transformation binds
one of its own links.  They are out of date only where a link was bound below the expression since
the tables were emptied.

## Main statement

* `ask_congr`: equal expressions have equal replies.
-/

set_option autoImplicit false

namespace Residual

open Memo

variable {x y id : ExprId}

/-- The questions about one expression. -/
inductive Question.Unary : (ExprId → Question) → Prop where
  | nullable : Unary nullable
  | height : Unary height
  | render : Unary render
  | simplify : Unary simplify
  | canonicalize : Unary canonicalize
  | delta : Unary delta
  | derivative (c : Char) : Unary (derivative · c)
  | derivativeOfText (text : String) : Unary (derivativeOfText · text)
  | accepts (text : String) : Unary (accepts · text)

theorem Question.Unary.ids {ask : ExprId → Question} (unary : Unary ask) :
    (ask id).toCall.ids = [id] := by
  cases unary <;> rfl

/-! ## One tree in two arenas -/

namespace Arena

variable {arena other : Arena}

/-- Closed expressions of two arenas have one tree exactly if they are the same expression. -/
theorem Closed.tree_eq_iff_mirrors (closed : arena.Closed x) (closed' : other.Closed y) :
    arena.tree x = other.tree y ↔ arena.Mirrors other x y := by
  constructor
  · intro same
    refine ⟨fun x y => arena.Closed x ∧ other.Closed y ∧ arena.tree x = other.tree y, ?_,
      closed, closed', same⟩
    rintro x y ⟨closed, closed', same⟩
    rw [closed.tree_of_get? closed.get?, closed'.tree_of_get? closed'.get?] at same
    have related : Expr.Related Eq ((arena.get x).map arena.tree) ((other.get y).map other.tree) :=
      Tree.node.inj same ▸ .refl_of_mem fun _ _ => rfl
    have below : Expr.Related (fun o' o => arena.tree o = other.tree o' ∧ other.Closed o')
        (other.get y) (arena.get x) :=
      (Expr.Related.map_left.mp (Expr.Related.map_right.mp related)).symm.imp_of_mem
        fun o' member o same => ⟨same, closed'.of_mem member⟩
    apply below.symm.imp_of_mem
    rintro o member o' ⟨same, isClosed'⟩
    exact ⟨closed.of_mem member, isClosed', same⟩
  · intro mirrors
    have grounded := closed.grounded
    generalize start : arena.resolve x = last at grounded
    induction grounded generalizing x y with
    | intro last _ inductionHypothesis =>
        subst start
        rw [closed.tree_of_get? closed.get?, closed'.tree_of_get? closed'.get?]
        have below : Expr.Related (fun o' o => arena.Mirrors other o o' ∧ other.Closed o')
            (other.get y) (arena.get x) :=
          mirrors.related_get.symm.imp_of_mem fun o' member o mirrors =>
            ⟨mirrors, closed'.of_mem member⟩
        have related : (arena.get x).Related (fun o o' => other.tree o' = arena.tree o)
            (other.get y) := by
          apply below.symm.imp_of_mem
          rintro o member o' ⟨mirrors, isClosed'⟩
          refine (inductionHypothesis (arena.resolve o) ?_ (closed.of_mem member) isClosed' mirrors
            rfl).symm
          unfold Child
          rw [closed.wellFormed.operands_resolve, mem_operands_iff]
          exact ⟨o, member, rfl⟩
        exact congrArg Tree.node (Expr.Related.map_right.mpr related).eq_map.symm

end Arena

namespace Grammar

variable {before after grammar first second last : Grammar} {limit : Nat} {tree tree' : Tree}
  {c : Char}

/-! ## Tables that are up to date -/

/-- What the tables say about closed expressions is right, where no link was bound below that is not
among the first `limit` slots. -/
structure Accurate (limit : Nat) (grammar : Grammar) : Prop where
  reachable : grammar.Reachable
  limited : limit ≤ grammar.arena.size
  normal : grammar.Normal limit
  distinguishes : grammar.Distinguishes limit

/-- An expression with this tree, below which no late link was bound. -/
structure Intact (limit : Nat) (grammar : Grammar) (id : ExprId) (tree : Tree) : Prop where
  closed : grammar.arena.Closed id
  clean : ¬ grammar.arena.Patched limit (grammar.arena.resolve id)
  tree_eq : grammar.arena.tree id = tree

theorem Reachable.clearTables (reachable : grammar.Reachable) : grammar.clearTables.Reachable :=
  reachable.evolve (.call .clearTables .refl (by simp [Call.ids]))

/-- Tables are up to date, but for the links that were bound since they were emptied. -/
theorem Reachable.accurate (reachable : before.Reachable)
    (evolves : before.clearTables.Evolves grammar) : grammar.Accurate before.arena.size := by
  have grows := reachable.clearTables.coherent.evolves evolves
  have fresh : before.clearTables.Normal before.arena.size := .of_empty rfl ⟨_, rfl⟩
  exact
    { reachable := reachable.clearTables.evolve evolves
      limited := grows.arena.size_le
      normal := grows.normal _ le_rfl fresh
      distinguishes := grows.distinguishes _ le_rfl (.empty _ _ _) }

theorem Accurate.evolve (accurate : before.Accurate limit) (evolves : before.Evolves after) :
    after.Accurate limit := by
  have grows := accurate.reachable.coherent.evolves evolves
  exact
    { reachable := accurate.reachable.evolve evolves
      limited := accurate.limited.trans grows.arena.size_le
      normal := grows.normal limit accurate.limited accurate.normal
      distinguishes := grows.distinguishes limit accurate.limited accurate.distinguishes }

theorem Intact.grows (intact : before.Intact limit id tree) (grows : before.Grows after) :
    after.Intact limit id tree := by
  have wellFormed := grows.coherent.wellFormed
  refine ⟨intact.closed.grows grows.arena wellFormed, fun patched => intact.clean ?_, ?_⟩
  · rw [intact.closed.resolve_grows grows.arena wellFormed] at patched
    exact intact.closed.resolve.patched_grows grows.arena patched
  · rw [intact.closed.tree_grows grows.arena wellFormed]
    exact intact.tree_eq

theorem Intact.evolve (intact : before.Intact limit id tree) (reachable : before.Reachable)
    (evolves : before.Evolves after) : after.Intact limit id tree :=
  intact.grows (reachable.coherent.evolves evolves)

namespace Accurate

variable (accurate : grammar.Accurate limit) (intact : grammar.Intact limit id tree)

include accurate

/-- What is called equal has one tree, and the other way round. -/
theorem equal_iff (intact : grammar.Intact limit x tree) (intact' : grammar.Intact limit y tree') :
    (Grammar.equal x y grammar).1 = true ↔ tree = tree' := by
  have coherent := accurate.reachable.coherent
  have wellFormed := coherent.wellFormed
  obtain ⟨advances, retains, settled⟩ :=
    coherent.equal_settles intact.closed.lt_size intact'.closed.lt_size
  have stays {o : ExprId} {tree : Tree} (intact : grammar.Intact limit o tree) :=
    intact.closed.resolve.resolve_grows retains.grows retains.wellFormed
  have closed := intact.closed.resolve
  have closed' := intact'.closed.resolve
  rw [← intact.tree_eq, ← intact'.tree_eq, ← intact.closed.tree_resolve,
    ← intact'.closed.tree_resolve, ← retains.tree_eq closed, ← retains.tree_eq closed']
  apply (tree_eq_iff advances.coherent.equalities
    (advances.distinguishes limit accurate.limited accurate.distinguishes) (retains.closed closed)
    (retains.closed closed') ?_ ?_ settled ?_ ?_).symm
  · exact (stays intact).trans (wellFormed.resolve_resolve x)
  · exact (stays intact').trans (wellFormed.resolve_resolve y)
  · exact fun patched => intact.clean (closed.patched_grows retains.grows patched)
  · exact fun patched => intact'.clean (closed'.patched_grows retains.grows patched)

include intact

theorem height_eq : (Grammar.height id grammar).1 = tree.height := by
  have coherent := accurate.reachable.coherent
  have closed := intact.closed
  obtain ⟨⟨heights, _, heightens, settled⟩, _⟩ :=
    (yields_computeHeight coherent.wellFormed coherent.heights closed.lt_size).settle 0
  rw [← intact.tree_eq, ← closed.tree_resolve]
  have measures := heightens.measures limit accurate.normal.measures
  exact (measures.height_eq settled closed.resolve).resolve_right intact.clean

theorem render_eq : (Grammar.render id grammar).1 = tree.render := by
  rw [accurate.reachable.render_eq intact.closed, intact.tree_eq]

theorem simplify : Gives (Grammar.simplify id) grammar fun value after =>
    grammar.Evolves after ∧ after.Intact limit value tree.simplify := by
  have coherent := accurate.reachable.coherent
  have closed := intact.closed
  have called : Gives (Grammar.simplify id) grammar fun _ after => grammar.Evolves after :=
    .call (.simplify id) .refl (by simp [Call.ids, closed.lt_size])
  apply (called.and (coherent.simplify_learns closed.lt_size)).mono
  rintro value after ⟨evolves, learns⟩
  obtain ⟨retains, normal, tells⟩ := learns limit accurate.limited accurate.normal
  obtain ⟨told, isClosed, resolved⟩ := tells closed
  have accurate' := accurate.evolve evolves
  have clean : ¬ after.arena.Patched limit (grammar.arena.resolve id) := fun patched =>
    intact.clean (closed.resolve.patched_grows retains.grows patched)
  refine ⟨evolves, isClosed, ?_, ?_⟩
  · rw [resolved]
    exact fun patched => clean ((normal.entry told (retains.closed closed.resolve)).clean patched)
  · rw [tree_simplified normal accurate'.reachable.coherent.equalities accurate'.distinguishes told
      (retains.closed closed.resolve) clean, retains.tree_eq closed.resolve, closed.tree_resolve,
      intact.tree_eq]

/-- A round that changes nothing stands for all that would come after it. -/
theorem simplifyWithin (passes done : Nat) :
    Gives (Grammar.simplifyWithin id done passes) grammar fun result after =>
      grammar.Evolves after ∧ after.Intact limit result.expr (Tree.simplify^[passes] tree) := by
  induction passes generalizing grammar id tree done with
  | zero => exact ⟨.refl, intact⟩
  | succ passes inductionHypothesis =>
      apply (gives_bind _ _ _).mpr
      apply (accurate.simplify intact).mono
      rintro next between ⟨simplified, isNext⟩
      have accurate' := accurate.evolve simplified
      have intact' := intact.evolve accurate.reachable simplified
      have compared : between.Evolves (Grammar.equal id next between).2 :=
        .call (.equal id next) .refl
          (by simp [Call.ids, intact'.closed.lt_size, isNext.closed.lt_size])
      have isEqual_iff := accurate'.equal_iff intact' isNext
      apply (gives_bind _ _ _).mpr
      unfold Gives
      generalize (Grammar.equal id next between).1 = isEqual at isEqual_iff
      generalize (Grammar.equal id next between).2 = later at compared
      have isNext := isNext.evolve accurate'.reachable compared
      cases isEqual with
      | true =>
          have fixed : tree.simplify = tree := (isEqual_iff.mp rfl).symm
          refine ⟨simplified.trans compared, ?_⟩
          rw [Function.iterate_fixed fixed]
          exact fixed ▸ isNext
      | false =>
          obtain ⟨evolves, isResult⟩ :=
            inductionHypothesis (accurate'.evolve compared) isNext (done + 1)
          exact ⟨(simplified.trans compared).trans evolves, isResult⟩

theorem canonicalize : Gives (Grammar.canonicalize id) grammar fun value after =>
    after.Intact limit value (Tree.simplify^[grammar.config.simplify.maxPasses] tree) := by
  apply (gives_bind _ _ _).mpr
  apply (gives_get _).mpr
  apply (gives_bind _ _ _).mpr
  apply (accurate.simplifyWithin intact grammar.config.simplify.maxPasses 0).mono
  rintro result between ⟨evolves, isResult⟩
  have noted (journal : Journal) := (accurate.evolve evolves).reachable.coherent.advances_journal journal
  split
  all_goals exact isResult.grows (noted _).grows

theorem delta : Gives (Grammar.delta id) grammar fun value after =>
    after.Intact limit value tree.delta := by
  have closed := intact.closed
  apply (accurate.reachable.coherent.reduces closed.lt_size).mono
  rintro value after reduces
  obtain ⟨told, tells, _⟩ := reduces.isDelta.tells
  have wellFormed := reduces.advances.coherent.wellFormed
  have isClosed := tells.closed wellFormed
  refine ⟨isClosed, fun patched => ?_, ?_⟩
  · exact tells.not_patched wellFormed (patched.of_resolve wellFormed)
  · rw [reduces.isDelta.tree closed.resolve, closed.tree_resolve, intact.tree_eq]

/-- Nothing is bound below a derivative that is not bound below the expression. -/
theorem derivative : Gives (Grammar.derivative id c) grammar fun result after =>
    ∀ d, result = .ok d → after.Intact limit d (after.arena.tree d) := by
  have coherent := accurate.reachable.coherent
  have closed := intact.closed
  apply (gives_bind _ _ _).mpr
  apply (gives_get _).mpr
  rw [coherent.undefined?_eq_none closed.defined]
  apply (((coherent.deriveDefined_stem accurate.reachable.derivativesStem closed.lt_size).and
    (coherent.deriveDefined closed.lt_size)).and (coherent.deriveDefined_cases closed.lt_size)).mono
  rintro _ after ⟨⟨stem, derives⟩, value, _, results, finished, ⟨_, rfl, rfl⟩ | ⟨_, rfl, _⟩⟩ d ⟨⟩
  have grows := derives.advances.grows
  have wellFormed := grows.coherent.wellFormed
  have stems := stem _ value finished.answered (closed.resolve.grows grows.arena wellFormed)
  refine ⟨stems.closed, fun patched => intact.clean ?_, rfl⟩
  exact closed.resolve.patched_grows grows.arena (stems.clean (patched.of_resolve wellFormed))

end Accurate

/-! ## Replies -/

theorem evolves_ask {ask : ExprId → Question} (unary : Question.Unary ask)
    (inside : id.number < grammar.arena.size) : grammar.Evolves ((ask id).ask grammar).2 := by
  rw [(ask id).snd_ask]
  apply Evolves.call _ .refl
  simpa [unary.ids] using inside

/-- Replies that say the same, if expressions count as the same that are related. -/
inductive Concur (Same : ExprId → ExprId → Prop) :
    Except Error Reply → Except Error Reply → Prop where
  | failure (error : Error) : Concur Same (.error error) (.error error)
  | truth (isTrue : Bool) : Concur Same (.ok (.truth isTrue)) (.ok (.truth isTrue))
  | number (value : Nat) : Concur Same (.ok (.number value)) (.ok (.number value))
  | text (text : String) : Concur Same (.ok (.text text)) (.ok (.text text))
  | expr {x y : ExprId} : Same x y → Concur Same (.ok (.expr x)) (.ok (.expr y))

variable {Same Same' : ExprId → ExprId → Prop}

theorem Concur.mono {result result' : Except Error Reply} (concur : Concur Same result result')
    (implies : ∀ x y, Same x y → Same' x y) : Concur Same' result result' := by
  cases concur with
  | failure error => exact .failure error
  | truth isTrue => exact .truth isTrue
  | number value => exact .number value
  | text text => exact .text text
  | expr same => exact .expr (implies _ _ same)

/-- Expressions with one tree, below which no late links were bound. -/
def SameTree (limit : Nat) (before after : Grammar) (x y : ExprId) : Prop :=
  ∃ tree, before.Intact limit x tree ∧ after.Intact limit y tree

/-- The replies to a question about expressions with one tree say the same. -/
theorem Accurate.concur (accurate : before.Accurate limit) (accurate' : after.Accurate limit)
    (config : before.config = after.config) (intact : before.Intact limit x tree)
    (intact' : after.Intact limit y tree) {ask : ExprId → Question} (unary : Question.Unary ask) :
    Concur (SameTree limit ((ask x).ask before).2 ((ask y).ask after).2)
      ((ask x).ask before).1 ((ask y).ask after).1 := by
  have closed := intact.closed
  have closed' := intact'.closed
  have mirrors : before.arena.Mirrors after.arena x y :=
    (closed.tree_eq_iff_mirrors closed').mp (intact.tree_eq.trans intact'.tree_eq.symm)
  have answers := accurate.reachable.sameAnswers accurate'.reachable config closed.lt_size
    closed'.lt_size closed.defined closed'.defined mirrors
  have derivatives (c : Char) : Concur
      (SameTree limit (Grammar.derivative x c before).2 (Grammar.derivative y c after).2)
      ((Grammar.derivative x c before).1.map .expr) ((Grammar.derivative y c after).1.map .expr) := by
    have derived := accurate.derivative intact (c := c)
    have derived' := accurate'.derivative intact' (c := c)
    have same := answers.derivative c (.inl closed.acyclic)
    unfold Gives at derived derived'
    generalize (Grammar.derivative x c before).1 = result at derived same
    generalize (Grammar.derivative y c after).1 = result' at derived' same
    cases same with
    | failure error => exact .failure error
    | success mirrors _ _ =>
        have intact := derived _ rfl
        have intact' := derived' _ rfl
        exact .expr ⟨_, (intact.closed.tree_eq_iff_mirrors intact'.closed).mpr mirrors ▸ intact,
          intact'⟩
  cases unary with
  | nullable =>
      change Concur _ (.ok (.truth (Grammar.nullable x before).1)) (.ok (.truth (Grammar.nullable y after).1))
      rw [answers.nullable (.inl closed.acyclic)]
      exact .truth _
  | height =>
      change Concur _ (.ok (.number (Grammar.height x before).1)) (.ok (.number (Grammar.height y after).1))
      rw [accurate.height_eq intact, accurate'.height_eq intact']
      exact .number _
  | render =>
      change Concur _ (.ok (.text (Grammar.render x before).1)) (.ok (.text (Grammar.render y after).1))
      rw [accurate.render_eq intact, accurate'.render_eq intact']
      exact .text _
  | simplify => exact .expr ⟨_, (accurate.simplify intact).2, (accurate'.simplify intact').2⟩
  | canonicalize =>
      have canonical := accurate.canonicalize intact
      rw [config] at canonical
      exact .expr ⟨_, canonical, accurate'.canonicalize intact'⟩
  | delta => exact .expr ⟨_, accurate.delta intact, accurate'.delta intact'⟩
  | derivative c => exact derivatives c
  | derivativeOfText text =>
      change Concur (SameTree limit (Grammar.derivativeOfText x text before).2
        (Grammar.derivativeOfText y text after).2)
        ((Grammar.derivativeOfText x text before).1.map .expr)
        ((Grammar.derivativeOfText y text after).1.map .expr)
      unfold Grammar.derivativeOfText
      rcases text.toList with _ | ⟨c, _ | _⟩
      · exact .failure _
      · exact derivatives c
      · exact .failure _
  | accepts text =>
      change Concur _ ((Grammar.accepts (.expr x) text before).1.map .truth)
        ((Grammar.accepts (.expr y) text after).1.map .truth)
      rw [answers.accepts text (.inl closed.acyclic)]
      cases (Grammar.accepts (.expr y) text after).1 with
      | error error => exact .failure error
      | ok accepted => exact .truth accepted

/-- Whatever was asked before and between, equal expressions without cycles and undefined references
have the same replies, if none of the links below them was bound since the tables were emptied. -/
theorem ask_congr (reachable : before.Reachable) (evolves : before.clearTables.Evolves grammar)
    (inside : x.number < grammar.arena.size) (inside' : y.number < grammar.arena.size)
    (acyclic : grammar.arena.Acyclic x) (acyclic' : grammar.arena.Acyclic y)
    (defined : grammar.arena.Defined x) (defined' : grammar.arena.Defined y)
    (clean : ¬ grammar.arena.Patched before.arena.size (grammar.arena.resolve x))
    (clean' : ¬ grammar.arena.Patched before.arena.size (grammar.arena.resolve y))
    (isEqual : (equal x y grammar).1 = true) {ask : ExprId → Question} (unary : Question.Unary ask)
    (starts : grammar.Evolves first) (goesOn : ((ask x).ask first).2.Evolves second)
    (ends : ((ask y).ask second).2.Evolves last) :
    Concur (fun d d' => (equal d d' last).1 = true) ((ask x).ask first).1 ((ask y).ask second).1 := by
  have accurate := reachable.accurate evolves
  have wellFormed := accurate.reachable.coherent.wellFormed
  have intact : grammar.Intact before.arena.size x _ :=
    ⟨wellFormed.closed_of_acyclic inside acyclic defined, clean, rfl⟩
  have intact' : grammar.Intact before.arena.size y _ :=
    ⟨wellFormed.closed_of_acyclic inside' acyclic' defined', clean', rfl⟩
  rw [← (accurate.equal_iff intact intact').mp isEqual] at intact'
  have intact := intact.evolve accurate.reachable starts
  have asked := evolves_ask unary intact.closed.lt_size
  have intact' := intact'.evolve accurate.reachable (starts.trans (asked.trans goesOn))
  have asked' := evolves_ask unary intact'.closed.lt_size
  have begun := accurate.evolve starts
  have replied := begun.evolve asked
  have resumed := replied.evolve goesOn
  have replied' := resumed.evolve asked'
  have config : second.config = first.config :=
    (begun.reachable.coherent.evolves (asked.trans goesOn)).config
  apply (begun.concur resumed config.symm intact intact' unary).mono
  rintro d d' ⟨tree, isReply, isReply'⟩
  have isReply := isReply.evolve replied.reachable (goesOn.trans (asked'.trans ends))
  have isReply' := isReply'.evolve replied'.reachable ends
  exact ((replied'.evolve ends).equal_iff isReply isReply').mpr rfl

theorem ask_congr_repetitionTwice :
    let ask := (Question.derivative · 'a')
    let between := ((ask ⟨4⟩).ask repetitionTwice).2
    let last := ((ask ⟨6⟩).ask between).2
    Concur (fun d d' => (equal d d' last).1 = true) ((ask ⟨4⟩).ask repetitionTwice).1
      ((ask ⟨6⟩).ask between).1 := by
  have acyclic : ∀ id, repetitionTwice.arena.Acyclic id := fun _ =>
    Arena.acyclic_of_forall (by decide)
  have defined : ∀ id, repetitionTwice.arena.Defined id := fun _ =>
    Arena.defined_of_forall (by decide)
  have fresh : repetitionTwice.clearTables.Evolves repetitionTwice :=
    (rfl : repetitionTwice.clearTables = repetitionTwice) ▸ .refl
  have accurate := repetitionTwice_reachable.accurate fresh
  have closed {id : ExprId} (inside : id.number < repetitionTwice.arena.size) :
      repetitionTwice.arena.Closed id :=
    accurate.reachable.coherent.wellFormed.closed_of_acyclic inside (acyclic id) (defined id)
  have star {id char : ExprId} (found : repetitionTwice.arena.slot? id = some (.expr (.star char)))
      (isChar : repetitionTwice.arena.slot? char = some (.expr (.char 'a'))) :
      repetitionTwice.Intact repetitionTwice.arena.size id (.node (.star (.node (.char 'a')))) := by
    have isClosed := closed (Arena.lt_size_of_slot? found)
    refine ⟨isClosed, Arena.not_patched_size, (isClosed.tree_of_expr found).trans ?_⟩
    simp [Expr.map, (closed (Arena.lt_size_of_slot? isChar)).tree_of_expr isChar]
  have isEqual : (equal ⟨4⟩ ⟨6⟩ repetitionTwice).1 = true :=
    (accurate.equal_iff (star rfl rfl) (star rfl rfl)).mpr rfl
  exact ask_congr repetitionTwice_reachable fresh (by decide) (by decide) (acyclic _) (acyclic _)
    (defined _) (defined _) Arena.not_patched_size Arena.not_patched_size isEqual (.derivative 'a')
    .refl .refl .refl

end Grammar

end Residual
