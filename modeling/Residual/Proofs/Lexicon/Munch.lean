import Residual.Lexicon.Munch
import Residual.Proofs.Grammar.Membership
import Residual.Text.Bytes

/-!
# Longest matches are longest

After each character the residual of a rule means what the language of the rule leaves of the text
read so far, and a rule without a residual accepts no continuation.  The match kept is the longest
one for what was read; reading on replaces it only by longer ones.
-/

set_option autoImplicit false

namespace Residual

namespace Lexicon

variable {languages : List (Language Char)} {text word read rest : List Char} {rule : Nat}

/-- The word is the longest non-empty beginning of the text that a language contains, and the first
such language has the number `rule`. -/
structure IsMatch (languages : List (Language Char)) (text word : List Char) (rule : Nat) :
    Prop where
  begins : word <+: text
  nonempty : word ≠ []
  mem : ∃ lang, languages[rule]? = some lang ∧ word ∈ lang
  first : ∀ earlier < rule, ∀ lang, languages[earlier]? = some lang → word ∉ lang
  longest : ∀ other, other <+: text → other ≠ [] → (∃ lang ∈ languages, other ∈ lang) →
    Text.byteLength other ≤ Text.byteLength word

/-- No language contains a non-empty beginning of the text. -/
def Excluded (languages : List (Language Char)) (text : List Char) : Prop :=
  ∀ word, word <+: text → word ≠ [] → ∀ lang ∈ languages, word ∉ lang

/-- The longest match of a text, if there is one. -/
def Finds (languages : List (Language Char)) (text : List Char) : Option Match → Prop
  | some found => ∃ word, word.length = found.length ∧ IsMatch languages text word found.rule
  | none => Excluded languages text

theorem byteLength_le_of_begins (begins : word <+: text) :
    Text.byteLength word ≤ Text.byteLength text := by
  obtain ⟨rest, rfl⟩ := begins
  rw [Text.byteLength_append]
  exact Nat.le_add_right _ _

theorem byteLength_lt_of_begins {word' : List Char} (begins : word <+: text)
    (begins' : word' <+: text) (shorter : word.length < word'.length) :
    Text.byteLength word < Text.byteLength word' := by
  obtain ⟨rest, rfl⟩ := List.prefix_of_prefix_length_le begins begins' shorter.le
  have := Text.length_le_byteLength rest
  rw [List.length_append] at shorter
  rw [Text.byteLength_append]
  omega

namespace IsMatch

variable {word' : List Char} {rule' : Nat} (isMatch : IsMatch languages text word rule)
  (isMatch' : IsMatch languages text word' rule')

include isMatch

theorem exists_mem : ∃ lang ∈ languages, word ∈ lang := by
  obtain ⟨lang, found, member⟩ := isMatch.mem
  exact ⟨lang, List.mem_of_getElem? found, member⟩

theorem not_excluded : ¬ Excluded languages text := by
  intro excluded
  obtain ⟨lang, isLang, member⟩ := isMatch.exists_mem
  exact excluded word isMatch.begins isMatch.nonempty lang isLang member

include isMatch'

theorem length_le : word'.length ≤ word.length := by
  by_contra longer
  have := byteLength_lt_of_begins isMatch.begins isMatch'.begins (Nat.lt_of_not_le longer)
  have := isMatch.longest word' isMatch'.begins isMatch'.nonempty isMatch'.exists_mem
  omega

theorem rule_le (sameWord : word = word') : rule ≤ rule' := by
  by_contra later
  obtain ⟨lang, found, member⟩ := isMatch'.mem
  exact isMatch.first rule' (Nat.lt_of_not_le later) lang found (sameWord ▸ member)

/-- There is at most one match. -/
theorem unique : word = word' ∧ rule = rule' := by
  have sameWord : word = word' :=
    (List.prefix_of_prefix_length_le isMatch.begins isMatch'.begins
      (isMatch'.length_le isMatch)).eq_of_length
      (Nat.le_antisymm (isMatch'.length_le isMatch) (isMatch.length_le isMatch'))
  exact ⟨sameWord, Nat.le_antisymm (isMatch.rule_le isMatch' sameWord)
    (isMatch'.rule_le isMatch sameWord.symm)⟩

end IsMatch

/-- The rule of a match, and the number of bytes that it takes from a text. -/
def Match.extent (text : List Char) (found : Match) : Nat × Nat :=
  (found.rule, Text.byteLength (text.take found.length))

section Finds

variable {found : Option Match} (finds : Finds languages text found)

include finds

theorem Finds.extent_eq_some_iff {length : Nat} :
    found.map (Match.extent text) = some (rule, length) ↔
      ∃ word, IsMatch languages text word rule ∧ Text.byteLength word = length := by
  cases found with
  | none =>
      refine iff_of_false nofun ?_
      rintro ⟨word, isMatch, _⟩
      exact isMatch.not_excluded finds
  | some found =>
      obtain ⟨word, sameLength, isMatch⟩ := finds
      have sameWord : text.take found.length = word := by
        rw [← sameLength]
        exact (List.prefix_iff_eq_take.mp isMatch.begins).symm
      rw [Option.map_some, Match.extent, sameWord, Option.some_inj, Prod.mk.injEq]
      constructor
      · rintro ⟨rfl, rfl⟩
        exact ⟨word, isMatch, rfl⟩
      · rintro ⟨word', isMatch', rfl⟩
        obtain ⟨rfl, rfl⟩ := isMatch.unique isMatch'
        exact ⟨rfl, rfl⟩

theorem Finds.eq_none_iff : found = none ↔ Excluded languages text := by
  cases found with
  | none => exact iff_of_true rfl finds
  | some found =>
      obtain ⟨word, _, isMatch⟩ := finds
      exact iff_of_false nofun isMatch.not_excluded

end Finds

/-- The beginnings of a longer text are old ones, or go on after the old text. -/
theorem begins_append (begins : word <+: read ++ rest) :
    word <+: read ∨ ∃ more, more <+: rest ∧ more ≠ [] ∧ word = read ++ more := by
  have begins' : read <+: read ++ rest := List.prefix_append read rest
  rcases List.prefix_or_prefix_of_prefix begins begins' with old | ⟨more, rfl⟩
  · exact .inl old
  · cases more with
    | nil => exact .inl (by simp)
    | cons c more =>
        exact .inr ⟨c :: more, (List.prefix_append_right_inj read).mp begins, nofun, rfl⟩

/-- A match is kept as long as no continuation is contained in a language. -/
theorem Finds.append {found : Option Match} (finds : Finds languages read found)
    (excluded : ∀ more, more <+: rest → more ≠ [] → ∀ lang ∈ languages, read ++ more ∉ lang) :
    Finds languages (read ++ rest) found := by
  cases found with
  | none =>
      intro word begins nonempty
      rcases begins_append begins with old | ⟨more, begins', goesOn, rfl⟩
      · exact finds word old nonempty
      · exact excluded more begins' goesOn
  | some found =>
      obtain ⟨word, sameLength, isMatch⟩ := finds
      refine ⟨word, sameLength, ?_⟩
      exact
        { isMatch with
          begins := isMatch.begins.trans (List.prefix_append read rest)
          longest := by
            rintro other begins nonempty ⟨lang, isLang, member⟩
            rcases begins_append begins with old | ⟨more, begins', goesOn, rfl⟩
            · exact isMatch.longest other old nonempty ⟨lang, isLang, member⟩
            · exact absurd member (excluded more begins' goesOn lang isLang) }

/-- The first language that contains a word, by position. -/
noncomputable def firstWith (languages : List (Language Char)) (word : List Char) : Option Nat :=
  languages.findIdx? fun lang => @decide (word ∈ lang) (Classical.propDecidable _)

theorem firstWith_cons (lang : Language Char) (languages : List (Language Char))
    (word : List Char) :
    (word ∈ lang → firstWith (lang :: languages) word = some 0) ∧
      (word ∉ lang →
        firstWith (lang :: languages) word = (firstWith languages word).map (· + 1)) := by
  unfold firstWith
  rw [List.findIdx?_cons]
  exact ⟨fun member => by simp [member], fun absent => by simp [absent]⟩

/-- A rule that is asked only if no earlier one accepts. -/
theorem or_firstWith_cons {lang : Language Char} {index : Nat} {acceptedBy : Option Nat}
    {accepted : Bool} (accepts : accepted = true ↔ acceptedBy.isNone = true ∧ word ∈ lang) :
    (if accepted then some index else acceptedBy).or
        ((firstWith languages word).map (index + 1 + ·)) =
      acceptedBy.or ((firstWith (lang :: languages) word).map (index + ·)) := by
  obtain ⟨here, elsewhere⟩ := firstWith_cons lang languages word
  cases acceptedBy with
  | some earlier =>
      have notAccepted : accepted = false := by simpa using accepts
      simp [notAccepted]
  | none =>
      by_cases member : word ∈ lang
      · simp [accepts.mpr ⟨rfl, member⟩, here member]
      · have notAccepted : accepted = false := by simpa [member] using accepts
        simp [notAccepted, elsewhere member, Function.comp_def, Nat.add_assoc, Nat.add_comm 1]

theorem notMem_of_firstWith_eq_none (isNone : firstWith languages word = none)
    (lang : Language Char) (isLang : lang ∈ languages) : word ∉ lang := by
  simpa using List.findIdx?_eq_none_iff.mp isNone lang isLang

/-- A text that a language contains is its own longest match. -/
theorem finds_of_firstWith (length : Nat) (nonempty : text ≠ [])
    (isFirst : firstWith languages text = some rule) (sameLength : text.length = length)
    (positive : 0 < length) : Finds languages text (some ⟨rule, length, positive⟩) := by
  obtain ⟨inside, member, first⟩ := List.findIdx?_eq_some_iff_getElem.mp isFirst
  refine ⟨text, sameLength, ?_⟩
  exact
    { begins := List.prefix_rfl
      nonempty := nonempty
      mem := ⟨_, List.getElem?_eq_getElem inside, by simpa using member⟩
      first := by
        intro earlier isEarlier lang found
        obtain ⟨_, rfl⟩ := List.getElem?_eq_some_iff.mp found
        simpa using first earlier isEarlier
      longest := fun other begins _ _ => byteLength_le_of_begins begins }

/-- The longest match after one more character. -/
def improve (swept : Advance) (length : Nat) (longest : Option Match) : Option Match :=
  match swept.acceptedBy with
  | some rule => some ⟨rule, length + 1, length.succ_pos⟩
  | none => longest

theorem Finds.improve {swept : Advance} {c : Char} {length : Nat} {longest : Option Match}
    (finds : Finds languages read longest) (sameLength : read.length = length)
    (accepts : swept.acceptedBy = firstWith languages (read ++ [c])) :
    Finds languages (read ++ [c]) (improve swept length longest) := by
  unfold Lexicon.improve
  split
  · rename_i rule isRule
    exact finds_of_firstWith _ (by simp) (accepts.symm.trans isRule) (by simp [sameLength]) _
  · rename_i isNone
    refine finds.append fun more begins nonempty lang isLang => ?_
    obtain rfl : more = [c] := by simpa [List.prefix_cons_iff, nonempty] using begins
    exact notMem_of_firstWith_eq_none (accepts.symm.trans isNone) lang isLang

/-- A language, and the sense in which an expression has it. -/
structure Meaning where
  sense : Sense
  lang : Language Char

end Lexicon

namespace Grammar

open Lexicon Memo

variable {grammar before between after : Grammar} {id : ExprId} {c : Char} {read rest : List Char}
  {meaning : Meaning} {residual : Option ExprId} {residuals : List (Option ExprId)}

/-- A residual means what a language leaves of the text read so far; without one nothing is left. -/
def Tracks (grammar : Grammar) (read : List Char) (meaning : Meaning) : Option ExprId → Prop
  | some id => grammar.arena.Means meaning.sense id (meaning.lang.leftQuotient read)
  | none => ∀ word, read ++ word ∉ meaning.lang

theorem Tracks.advance (tracks : before.Tracks read meaning residual) (coherent : before.Coherent)
    (advances : before.Advances after)
    (inside : ∀ id, residual = some id → id.number < before.arena.size) :
    after.Tracks read meaning residual := by
  cases residual with
  | none => exact tracks
  | some id =>
      exact (advances.extending.means_iff coherent.wellFormed advances.coherent.wellFormed
        (inside id rfl)).mpr tracks

section Next

variable {derivative value : ExprId} {later : Grammar} (live : before.Live id)
  (coherent : before.Coherent) (derives : before.Derives id c (.ok derivative) between)
  (normalizes : between.Normalizes derivative value later)

include live coherent derives normalizes

/-- The canonical form of a derivative means what the character leaves. -/
theorem Tracks.next (trusted : later.Trusts meaning.sense)
    (tracks : before.Tracks read meaning (some id)) :
    later.Tracks (read ++ [c]) meaning (some value) := by
  obtain ⟨inside, _⟩ := derives.isDerivative rfl
  have leaves := Leaves.derive derives coherent live.inside rfl live.counted
  have means := (leaves.normalize derives.advances.coherent inside normalizes).means
    _ trusted _ tracks
  rwa [← Language.leftQuotient_append] at means

end Next

/-- What one more character makes of a rule. -/
structure Steps (before : Grammar) (c : Char) (id : ExprId) (asked : Bool)
    (result : Except Error (Option ExprId × Bool)) (after : Grammar) : Prop where
  advances : before.Advances after
  inside : ∀ {next accepted}, result = .ok (some next, accepted) →
    next.number < after.arena.size
  answers : 0 < before.config.simplify.maxPasses → before.Live id →
    ∃ residual accepted, result = .ok (residual, accepted) ∧
      (∀ next, residual = some next → after.Live next) ∧
      ∀ {read meaning}, after.Trusts meaning.sense → before.Tracks read meaning (some id) →
        after.Tracks (read ++ [c]) meaning residual ∧
          (accepted = true ↔ asked = true ∧ read ++ [c] ∈ meaning.lang)

namespace Coherent

variable (coherent : grammar.Coherent)

include coherent

theorem advanceRule (inside : id.number < grammar.arena.size) (asked : Bool) :
    Gives (Lexicon.advanceRule c id asked) grammar (grammar.Steps c id asked) := by
  refine (gives_bind _ _ _).mpr
    (((coherent.derivative inside).and (coherent.derivative_lt inside)).mono ?_)
  rintro (error | next) between ⟨⟨advances, derives⟩, inside'⟩
  · refine (gives_pure _ _).mpr ⟨advances, nofun, fun passes live => ?_⟩
    obtain ⟨_, isResult⟩ := (derives live.defined).answers live.counted
    cases isResult
  · have coherent' := advances.coherent
    have inside' := inside' next rfl
    refine (gives_bind _ _ _).mpr ((coherent'.canonicalize inside').mono ?_)
    rintro value later ⟨normalizes, isCounted⟩
    have onward := advances.trans normalizes.advances
    have isLive : 0 < grammar.config.simplify.maxPasses → grammar.Live id → later.Live value :=
      fun passes live => (live.derive coherent (derives live.defined)).normalize coherent'
        normalizes (isCounted (.inl (by rwa [advances.config])))
    have tracks : grammar.Live id → ∀ {read meaning}, later.Trusts meaning.sense →
        grammar.Tracks read meaning (some id) → later.Tracks (read ++ [c]) meaning (some value) :=
      fun live _ _ => Tracks.next live coherent (derives live.defined) normalizes
    have coherent'' := onward.coherent
    refine (gives_bind _ _ _).mpr ((gives_get _).mpr ?_)
    split
    · rename_i isNil
      refine ⟨onward, nofun, fun _ live => ⟨none, false, rfl, nofun, fun trusted tracked => ?_⟩⟩
      have dead := coherent''.notMem_of_get_eq_nil isNil (tracks live trusted tracked)
      exact ⟨dead,
        iff_of_false Bool.false_ne_true fun accepts => dead [] (by simpa using accepts.2)⟩
    · split <;> rename_i isAsked
      · refine (gives_bind _ _ _).mpr
          (((coherent''.yields_nullable normalizes.inside).settle false).mono ?_)
        rintro accepted after ⟨advances', _, isNullable, _⟩
        refine ⟨onward.trans advances', ?_, fun passes live => ⟨some value, accepted, rfl, ?_, ?_⟩⟩
        · rintro _ _ ⟨⟩
          exact advances'.lt_size normalizes.inside
        · rintro _ ⟨⟩
          exact (isLive passes live).advance coherent'' advances'
        · intro read meaning trusted tracked
          have means := tracks live (advances'.trusts trusted) tracked
          refine ⟨means.advance coherent'' advances' (by simp [normalizes.inside]), ?_⟩
          rw [isNullable.exact _ trusted.1 _ means, Language.mem_leftQuotient, List.append_nil]
          exact (and_iff_right isAsked).symm
      · refine ⟨onward, ?_, fun passes live => ⟨some value, false, rfl, ?_, ?_⟩⟩
        · rintro _ _ ⟨⟩
          exact normalizes.inside
        · rintro _ ⟨⟩
          exact isLive passes live
        · exact fun trusted tracked => ⟨tracks live trusted tracked,
            iff_of_false Bool.false_ne_true fun accepts => isAsked accepts.1⟩

end Coherent

/-- All residuals of some rules can be derived. -/
def AllLive (grammar : Grammar) (residuals : List (Option ExprId)) : Prop :=
  ∀ id, some id ∈ residuals → grammar.Live id

/-- What the grammar says about the meanings can be relied on. -/
def TrustsAll (grammar : Grammar) (meanings : List Meaning) : Prop :=
  ∀ meaning ∈ meanings, grammar.Trusts meaning.sense

/-- Residuals of some rules after a text. -/
def TracksAll (grammar : Grammar) (read : List Char) (meanings : List Meaning)
    (residuals : List (Option ExprId)) : Prop :=
  List.Forall₂ (grammar.Tracks read) meanings residuals

variable {index : Nat} {acceptedBy : Option Nat} {meanings : List Meaning}

/-- What one more character makes of some rules, the first of which has the number `index`. -/
structure Sweeps (before : Grammar) (c : Char) (index : Nat) (acceptedBy : Option Nat)
    (residuals : List (Option ExprId)) (result : Except Error Advance) (after : Grammar) :
    Prop where
  advances : before.Advances after
  inside : ∀ {swept}, result = .ok swept → ∀ id, some id ∈ swept.residuals →
    id.number < after.arena.size
  answers : 0 < before.config.simplify.maxPasses → before.AllLive residuals →
    ∃ swept, result = .ok swept ∧ after.AllLive swept.residuals ∧
      ∀ {read meanings}, after.TrustsAll meanings → before.TracksAll read meanings residuals →
        after.TracksAll (read ++ [c]) meanings swept.residuals ∧
          swept.acceptedBy =
            acceptedBy.or ((firstWith (meanings.map Meaning.lang) (read ++ [c])).map (index + ·))

theorem AllLive.advance (live : before.AllLive residuals) (coherent : before.Coherent)
    (advances : before.Advances after) : after.AllLive residuals :=
  fun id member => (live id member).advance coherent advances

theorem AllLive.of_cons (live : grammar.AllLive (residual :: residuals)) :
    grammar.AllLive residuals :=
  fun id member => live id (List.mem_cons_of_mem _ member)

theorem TrustsAll.of_cons (trusted : grammar.TrustsAll (meaning :: meanings)) :
    grammar.TrustsAll meanings :=
  fun other member => trusted other (List.mem_cons_of_mem _ member)

theorem Advances.trustsAll (advances : before.Advances after) (trusted : after.TrustsAll meanings) :
    before.TrustsAll meanings :=
  fun meaning member => advances.trusts (trusted meaning member)

theorem TracksAll.advance (tracks : before.TracksAll read meanings residuals)
    (coherent : before.Coherent) (advances : before.Advances after)
    (inside : ∀ id, some id ∈ residuals → id.number < before.arena.size) :
    after.TracksAll read meanings residuals :=
  (Arena.forall₂_mem tracks).imp fun _ _ ⟨_, member, tracks⟩ =>
    tracks.advance coherent advances fun id isResidual => inside id (isResidual ▸ member)

namespace Sweeps

variable {swept : Advance}

/-- No rule that can be derived fails. -/
theorem of_error {error : Error} (advances : before.Advances after)
    (never : 0 < before.config.simplify.maxPasses → ¬ before.AllLive residuals) :
    before.Sweeps c index acceptedBy residuals (.error error) after :=
  ⟨advances, nofun, fun passes live => absurd live (never passes)⟩

theorem not_allLive {error : Error}
    (sweeps : before.Sweeps c index acceptedBy residuals (.error error) after)
    (passes : 0 < before.config.simplify.maxPasses) : ¬ before.AllLive residuals := by
  intro live
  obtain ⟨_, isResult, _⟩ := sweeps.answers passes live
  cases isResult

/-- A rule without a residual is passed over. -/
theorem cons_none (sweeps : before.Sweeps c (index + 1) acceptedBy residuals (.ok swept) after) :
    before.Sweeps c index acceptedBy (none :: residuals)
      (.ok { swept with residuals := none :: swept.residuals }) after := by
  refine ⟨sweeps.advances, ?_, fun passes live => ?_⟩
  · rintro _ ⟨⟩ id member
    exact sweeps.inside rfl id (by simpa using member)
  · obtain ⟨_, ⟨⟩, isLive, answers⟩ := sweeps.answers passes live.of_cons
    refine ⟨_, rfl, fun id member => isLive id (by simpa using member), ?_⟩
    rintro read _ trusted (_ | ⟨dead, tracked⟩)
    obtain ⟨tracked, accepts⟩ := answers trusted.of_cons tracked
    have stillDead : after.Tracks (read ++ [c]) _ none := fun word => by
      simpa using dead (c :: word)
    refine ⟨.cons stillDead tracked, accepts.trans ?_⟩
    have notAccepted : false = true ↔ acceptedBy.isNone = true ∧ read ++ [c] ∈ _ :=
      iff_of_false Bool.false_ne_true fun accepts => dead [c] accepts.2
    exact or_firstWith_cons notAccepted

/-- A rule with a residual makes a step, and then the other rules are swept. -/
theorem cons_some {accepted : Bool} (coherent : before.Coherent)
    (steps : before.Steps c id acceptedBy.isNone (.ok (residual, accepted)) between)
    (sweeps : between.Sweeps c (index + 1) (if accepted then some index else acceptedBy) residuals
      (.ok swept) after) :
    before.Sweeps c index acceptedBy (some id :: residuals)
      (.ok { swept with residuals := residual :: swept.residuals }) after := by
  have coherent' := steps.advances.coherent
  refine ⟨steps.advances.trans sweeps.advances, ?_, fun passes live => ?_⟩
  · rintro _ ⟨⟩ next member
    rcases List.mem_cons.mp member with rfl | member
    · exact sweeps.advances.lt_size (steps.inside rfl)
    · exact sweeps.inside rfl next member
  · obtain ⟨_, _, ⟨⟩, nextLive, isTracked⟩ := steps.answers passes (live id (by simp))
    have restLive := live.of_cons.advance coherent steps.advances
    rw [← steps.advances.config] at passes
    obtain ⟨_, ⟨⟩, sweptLive, answers⟩ := sweeps.answers passes restLive
    refine ⟨_, rfl, fun next member => ?_, ?_⟩
    · rcases List.mem_cons.mp member with rfl | member
      · exact (nextLive next rfl).advance coherent' sweeps.advances
      · exact sweptLive next member
    · rintro read _ trusted (_ | ⟨here, tracked⟩)
      obtain ⟨here, accepts⟩ := isTracked
        (sweeps.advances.trusts (trusted _ List.mem_cons_self)) here
      have tracked : between.TracksAll read _ residuals := TracksAll.advance tracked coherent
        steps.advances fun next member => (live.of_cons next member).inside
      obtain ⟨tracked, sweptAccepts⟩ := answers trusted.of_cons tracked
      have here := here.advance coherent' sweeps.advances fun next isNext =>
        (nextLive next isNext).inside
      exact ⟨.cons here tracked, sweptAccepts.trans (or_firstWith_cons accepts)⟩

end Sweeps

namespace Coherent

/-- One character for all rules. -/
theorem advance (coherent : grammar.Coherent)
    (inside : ∀ id, some id ∈ residuals → id.number < grammar.arena.size) :
    Gives (Lexicon.advance c index acceptedBy residuals) grammar
      (grammar.Sweeps c index acceptedBy residuals) := by
  induction residuals generalizing grammar index acceptedBy with
  | nil =>
      refine ⟨coherent.advances_refl, ?_, fun _ _ => ⟨_, rfl, nofun, ?_⟩⟩
      · rintro _ ⟨⟩
        exact nofun
      · rintro read meanings _ ⟨⟩
        exact ⟨.nil, by simp [firstWith]⟩
  | cons residual rest inductionHypothesis =>
      have inside' : ∀ id, some id ∈ rest → id.number < grammar.arena.size :=
        fun id member => inside id (List.mem_cons_of_mem _ member)
      cases residual with
      | none =>
          refine (gives_bind _ _ _).mpr ((inductionHypothesis coherent inside').mono ?_)
          rintro (error | swept) after sweeps
          · exact .of_error sweeps.advances fun passes live =>
              sweeps.not_allLive passes live.of_cons
          · exact sweeps.cons_none
      | some id =>
          refine (gives_bind _ _ _).mpr ((coherent.advanceRule (inside id (by simp)) _).mono ?_)
          rintro (error | ⟨residual, accepted⟩) between steps
          · refine .of_error steps.advances fun passes live => ?_
            obtain ⟨_, _, isResult, _⟩ := steps.answers passes (live id (by simp))
            cases isResult
          · refine (gives_bind _ _ _).mpr ((inductionHypothesis steps.advances.coherent
              fun next member => steps.advances.lt_size (inside' next member)).mono ?_)
            rintro (error | swept) after sweeps
            · refine .of_error (steps.advances.trans sweeps.advances) fun passes live => ?_
              rw [← steps.advances.config] at passes
              exact sweeps.not_allLive passes (live.of_cons.advance coherent steps.advances)
            · exact .cons_some coherent steps sweeps

end Coherent

/-! ## Reading on -/

variable {length : Nat} {longest found : Option Match}

/-- Without residuals no language contains a continuation. -/
theorem TracksAll.notMem (tracks : grammar.TracksAll read meanings residuals)
    (allDead : residuals.all Option.isNone = true) (lang : Language Char)
    (isLang : lang ∈ meanings.map Meaning.lang) (more : List Char) : read ++ more ∉ lang := by
  obtain ⟨meaning, member, rfl⟩ := List.mem_map.mp isLang
  obtain ⟨residual, isResidual, tracks⟩ := Arena.exists_related_left tracks.flip meaning member
  obtain rfl : residual = none := by simpa using List.all_eq_true.mp allDead residual isResidual
  exact tracks more

/-- What the rest of a text makes of some rules. -/
structure Munches (before : Grammar) (residuals : List (Option ExprId)) (length : Nat)
    (longest : Option Match) (rest : List Char) (result : Except Error (Option Match))
    (after : Grammar) : Prop where
  advances : before.Advances after
  answers : 0 < before.config.simplify.maxPasses → before.AllLive residuals →
    ∃ found, result = .ok found ∧ ∀ {read meanings}, after.TrustsAll meanings →
      before.TracksAll read meanings residuals → read.length = length →
        Finds (meanings.map Meaning.lang) read longest →
          Finds (meanings.map Meaning.lang) (read ++ rest) found

namespace Munches

/-- Without residuals the match is the longest one of the whole text. -/
theorem of_all_isNone (coherent : grammar.Coherent)
    (allDead : residuals.all Option.isNone = true) :
    grammar.Munches residuals length longest rest (.ok longest) grammar where
  advances := coherent.advances_refl
  answers _ _ := ⟨longest, rfl, fun _ tracks _ finds =>
    finds.append fun more _ _ lang isLang => tracks.notMem allDead lang isLang more⟩

/-- First a character and then the rest of the text. -/
theorem of_sweep {swept : Advance} {result : Except Error (Option Match)}
    (sweeps : before.Sweeps c 0 none residuals (.ok swept) between)
    (munches : between.Munches swept.residuals (length + 1) (improve swept length longest) rest
      result after) :
    before.Munches residuals length longest (c :: rest) result after := by
  refine ⟨sweeps.advances.trans munches.advances, fun passes live => ?_⟩
  obtain ⟨_, ⟨⟩, sweptLive, isTracked⟩ := sweeps.answers passes live
  rw [← sweeps.advances.config] at passes
  obtain ⟨found, isResult, answers⟩ := munches.answers passes sweptLive
  refine ⟨found, isResult, fun trusted tracked sameLength finds => ?_⟩
  obtain ⟨tracked, accepts⟩ := isTracked (munches.advances.trustsAll trusted) tracked
  have improved := finds.improve sameLength (by simpa using accepts)
  have finds := answers trusted tracked (by simp [sameLength]) improved
  rwa [List.append_assoc, List.singleton_append] at finds

end Munches

namespace Coherent

/-- The longest match of what was read becomes the longest match of the whole text. -/
theorem munch (coherent : grammar.Coherent) (rest : List Char)
    (inside : ∀ id, some id ∈ residuals → id.number < grammar.arena.size) :
    Gives (Lexicon.munch residuals length longest rest) grammar
      (grammar.Munches residuals length longest rest) := by
  induction rest generalizing grammar residuals length longest with
  | nil =>
      refine ⟨coherent.advances_refl, fun _ _ => ⟨longest, rfl, fun _ _ _ finds => ?_⟩⟩
      rwa [List.append_nil]
  | cons c rest inductionHypothesis =>
      refine (gives_bind _ _ _).mpr ((coherent.advance inside).mono ?_)
      rintro (error | swept) between sweeps
      · exact ⟨sweeps.advances, fun passes live => absurd live (sweeps.not_allLive passes)⟩
      · have coherent' := sweeps.advances.coherent
        dsimp only
        split
        · rename_i allDead
          exact .of_sweep sweeps (.of_all_isNone coherent' allDead)
        · exact (inductionHypothesis coherent' (sweeps.inside rfl)).mono fun _ _ munches =>
            .of_sweep sweeps munches

end Coherent

/-- The canonical forms of the rules, with which a match begins. -/
structure Starts (before : Grammar) (langs starts : List ExprId) (after : Grammar) : Prop where
  advances : before.Advances after
  inside : ∀ id ∈ starts, id.number < after.arena.size
  live : 0 < before.config.simplify.maxPasses → (∀ id ∈ langs, before.arena.Defined id) →
    after.AllLive (starts.map some)
  tracks : ∀ {meanings}, after.TrustsAll meanings → before.TracksAll [] meanings (langs.map some) →
    after.TracksAll [] meanings (starts.map some)

namespace Coherent

theorem starts (coherent : grammar.Coherent) {langs : List ExprId}
    (inside : ∀ id ∈ langs, id.number < grammar.arena.size) :
    Gives (langs.mapM Grammar.canonicalize) grammar (grammar.Starts langs) := by
  induction langs generalizing grammar with
  | nil => exact ⟨coherent.advances_refl, nofun, fun _ _ => nofun, fun _ tracks => tracks⟩
  | cons id langs inductionHypothesis =>
      have inside' := inside id (by simp)
      rw [List.mapM_cons]
      refine (gives_bind _ _ _).mpr ((coherent.canonicalize inside').mono ?_)
      rintro start between ⟨normalizes, isCounted⟩
      have advances := normalizes.advances
      have coherent' := advances.coherent
      refine (gives_bind _ _ _).mpr ((inductionHypothesis coherent' fun id member =>
        advances.lt_size (inside id (List.mem_cons_of_mem _ member))).mono ?_)
      rintro starts after others
      refine (gives_pure _ _).mpr ⟨advances.trans others.advances, ?_, ?_, ?_⟩
      · intro other member
        rcases List.mem_cons.mp member with rfl | member
        · exact others.advances.lt_size normalizes.inside
        · exact others.inside other member
      · intro passes defined other member
        have isDefined : ∀ other ∈ id :: langs, between.arena.Defined other := fun other member =>
          (advances.extending.defined_iff coherent.wellFormed (inside other member)).mpr
            (defined other member)
        have isLive : between.Live start :=
          ⟨normalizes.inside, isCounted (.inl passes), normalizes.defined (isDefined id (by simp))⟩
        rw [← advances.config] at passes
        rcases List.mem_cons.mp member with same | member
        · rw [Option.some.inj same]
          exact isLive.advance coherent' others.advances
        · exact others.live passes
            (fun other member => isDefined other (List.mem_cons_of_mem _ member)) other member
      · rintro _ trusted (_ | ⟨here, tracked⟩)
        have leaves := (Leaves.refl grammar id).normalize coherent inside' normalizes
        have here : between.Tracks [] _ (some start) :=
          leaves.means _ (others.advances.trusts (trusted _ List.mem_cons_self)) _ here
        have tracked := TracksAll.advance tracked coherent advances fun other member =>
          inside other (List.mem_cons_of_mem _ (by simpa using member))
        have here := here.advance coherent' others.advances (by simp [normalizes.inside])
        exact .cons here (others.tracks trusted.of_cons tracked)

/-- The longest match of a text is found, if the rules reach no undefined references. -/
theorem longestMatch (coherent : grammar.Coherent) {langs : List ExprId}
    (inside : ∀ id ∈ langs, id.number < grammar.arena.size) (text : List Char) :
    Gives (Lexicon.longestMatch langs text) grammar fun result after =>
      grammar.Advances after ∧ (0 < grammar.config.simplify.maxPasses →
        (∀ id ∈ langs, grammar.arena.Defined id) → ∃ found, result = .ok found ∧
          ∀ meanings, after.TrustsAll meanings →
            grammar.TracksAll [] meanings (langs.map some) →
            Finds (meanings.map Meaning.lang) text found) := by
  refine (gives_bind _ _ _).mpr ((coherent.starts inside).mono ?_)
  rintro starts between started
  refine (started.advances.coherent.munch text fun id member => ?_).mono ?_
  · exact started.inside id (by simpa using member)
  · rintro result after munches
    refine ⟨started.advances.trans munches.advances, fun passes defined => ?_⟩
    have live := started.live passes defined
    rw [← started.advances.config] at passes
    obtain ⟨found, isResult, answers⟩ := munches.answers passes live
    refine ⟨found, isResult, fun meanings trusted tracked => ?_⟩
    refine answers trusted (started.tracks (munches.advances.trustsAll trusted) tracked) rfl ?_
    intro word begins nonempty
    exact absurd (List.prefix_nil.mp begins) nonempty

end Coherent

end Grammar

end Residual
