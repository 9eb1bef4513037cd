import Residual.Proofs.Lexicon.LongestMatch
import Residual.Proofs.Lexicon.Spans

/-!
# Tokens partition a source

Whatever the rules of a lexicon are and whatever its grammar remembers, splitting a source consumes
longest matches one after the other.  The pieces are non-empty, they stand one behind the other
from the start of the source on, and what they leave is where the lexicon ends or fails.
-/

set_option autoImplicit false

namespace Residual

namespace Lexicon

open Memo

/-- A text that a rule accepts: a token if the rule has a kind, and skipped otherwise. -/
structure Piece (Kind : Type) where
  kind : Option Kind
  text : List Char
  span : Span

variable {Kind : Type} {lexicon before between after : Lexicon Kind} {grammar : Grammar}
  {place next : Place} {error : Error} {source : String} {earlier : List Char}
  {residuals : List (Option ExprId)} {pieces : List (Piece Kind)}

section Bounds

/-- The rules of `count` residuals were asked, the first of which has the number `index`. -/
structure Advance.Bounded (swept : Advance) (index count : Nat) (acceptedBy : Option Nat) :
    Prop where
  sameLength : swept.residuals.length = count
  inside : ∀ rule, swept.acceptedBy = some rule → acceptedBy = some rule ∨ rule < index + count

theorem Advance.Bounded.cons {swept : Advance} {index count : Nat} {asked acceptedBy : Option Nat}
    (bounded : swept.Bounded (index + 1) count asked) (residual : Option ExprId)
    (isAsked : ∀ rule, asked = some rule → acceptedBy = some rule ∨ rule = index) :
    Advance.Bounded { swept with residuals := residual :: swept.residuals } index (count + 1)
      acceptedBy where
  sameLength := by simp [bounded.sameLength]
  inside := by
    intro rule isRule
    rcases bounded.inside rule isRule with isEarlier | inside
    · rcases isAsked rule isEarlier with isEarlier | rfl
      · exact .inl isEarlier
      · exact .inr (by omega)
    · exact .inr (by omega)

/-- The rule that accepts is one of those that were asked. -/
theorem advance_bounded (c : Char) (index : Nat) (acceptedBy : Option Nat) :
    Gives (advance c index acceptedBy residuals) grammar fun answer _ =>
      ∀ swept, answer = .ok swept → swept.Bounded index residuals.length acceptedBy := by
  induction residuals generalizing index acceptedBy grammar with
  | nil =>
      rintro _ ⟨⟩
      exact ⟨rfl, fun rule isRule => .inl isRule⟩
  | cons residual residuals inductionHypothesis =>
      cases residual with
      | none =>
          refine (gives_bind _ _ _).mpr ((inductionHypothesis (index + 1) acceptedBy).mono ?_)
          rintro (error | swept) _ bounded
          · exact nofun
          · rintro _ ⟨⟩
            exact (bounded swept rfl).cons none fun rule isRule => .inl isRule
      | some lang =>
          refine (gives_bind _ _ _).mpr (.of_forall ?_)
          rintro (error | ⟨residual, accepted⟩) _
          · exact nofun
          · refine (gives_bind _ _ _).mpr ((inductionHypothesis (index + 1) _).mono ?_)
            rintro (error | swept) _ bounded
            · exact nofun
            · rintro _ ⟨⟩
              refine (bounded swept rfl).cons residual fun rule isRule => ?_
              cases accepted with
              | false => exact .inl isRule
              | true => exact .inr (Option.some.inj isRule).symm

/-- A match has one of the rules, and its text ends before an offset. -/
structure Match.Bounded (found : Match) (rules stop : Nat) : Prop where
  rule_lt : found.rule < rules
  length_le : found.length ≤ stop

theorem munch_bounded (length : Nat) (longest : Option Match) (text : List Char) :
    Gives (munch residuals length longest text) grammar fun answer _ =>
      ∀ found, answer = .ok (some found) →
        longest = some found ∨ found.Bounded residuals.length (length + text.length) := by
  induction text generalizing residuals length longest grammar with
  | nil =>
      rintro found ⟨⟩
      exact .inl rfl
  | cons c text inductionHypothesis =>
      refine (gives_bind _ _ _).mpr ((advance_bounded c 0 none).mono ?_)
      rintro (error | swept) grammar bounded
      · exact nofun
      · have bounded := bounded swept rfl
        have improved : ∀ found, improve swept length longest = some found →
            longest = some found ∨
              found.Bounded residuals.length (length + (c :: text).length) := by
          intro found isFound
          unfold improve at isFound
          split at isFound
          · rename_i rule isRule
            cases isFound
            have inside := (bounded.inside rule isRule).resolve_left nofun
            rw [Nat.zero_add] at inside
            exact .inr ⟨inside, by simp⟩
          · exact .inl isFound
        dsimp only
        split
        · intro found isFound
          exact improved found (Except.ok.inj isFound)
        · refine (inductionHypothesis (length + 1) _).mono fun answer _ holds found isFound => ?_
          rcases holds found isFound with isImproved | ⟨inside, ends⟩
          · exact improved found isImproved
          · rw [bounded.sameLength] at inside
            rw [List.length_cons]
            exact .inr ⟨inside, by omega⟩

theorem mapM_canonicalize_length (langs : List ExprId) :
    Gives (langs.mapM Grammar.canonicalize) grammar fun ids _ => ids.length = langs.length := by
  induction langs generalizing grammar with
  | nil => rfl
  | cons lang langs inductionHypothesis =>
      rw [List.mapM_cons]
      refine (gives_bind _ _ _).mpr (.of_forall fun id between => ?_)
      refine (gives_bind _ _ _).mpr (inductionHypothesis.mono fun ids _ sameLength => ?_)
      exact congrArg (· + 1) sameLength

/-- A longest match is a beginning of the text, by one of the rules. -/
theorem longestMatch_bounded (langs : List ExprId) (text : List Char) :
    Gives (longestMatch langs text) grammar fun answer _ =>
      ∀ found, answer = .ok (some found) → found.Bounded langs.length text.length := by
  refine (gives_bind _ _ _).mpr ((mapM_canonicalize_length langs).mono ?_)
  intro ids grammar sameLength
  refine (munch_bounded 0 none text).mono fun answer _ holds found isFound => ?_
  have bounded := (holds found isFound).resolve_left nofun
  rwa [List.length_map, sameLength, Nat.zero_add] at bounded

end Bounds

namespace Piece

/-- The token that a piece is. -/
def token? (piece : Piece Kind) : Option (Token Kind) :=
  piece.kind.map fun kind => ⟨kind, piece.span⟩

/-- What is reported of a piece. -/
def event [ToString Kind] (piece : Piece Kind) : Event :=
  match piece.kind with
  | some kind => .tokenFound (toString kind) piece.span
  | none => .textSkipped piece.span

/-- The texts of pieces, one behind the other. -/
def texts (pieces : List (Piece Kind)) : List Char :=
  pieces.flatMap Piece.text

def tokens (pieces : List (Piece Kind)) : List (Token Kind) :=
  pieces.filterMap token?

theorem tokens_append (pieces pieces' : List (Piece Kind)) :
    tokens (pieces ++ pieces') = tokens pieces ++ tokens pieces' := by
  rw [tokens, tokens, tokens, List.filterMap_append]

end Piece

/-- The piece that a match with a rule makes of what follows a place. -/
def Rule.piece (rule : Rule Kind) (place : Place) (found : Match) : Piece Kind where
  kind := rule.kind
  text := place.rest.take found.length
  span := place.span (place.skip found.length)

/-- The lexicon looks for the longest match at a place. -/
def Matches (before : Lexicon Kind) (place : Place)
    (answer : Except Grammar.Error (Option Match)) (after : Lexicon Kind) : Prop :=
  onGrammar (longestMatch before.langs place.rest) before = (answer, after)

theorem Matches.bounded {found : Match}
    (matched : Matches before place (.ok (some found)) between) :
    found.Bounded before.langs.length place.rest.length := by
  have bounded : Gives (longestMatch before.langs place.rest) before.grammar _ :=
    longestMatch_bounded before.langs place.rest
  exact bounded found (congrArg Prod.fst matched)

/-- A match is not empty. -/
theorem Matches.take_ne_nil {found : Match}
    (matched : Matches before place (.ok (some found)) between) :
    place.rest.take found.length ≠ [] := by
  have positive := found.length_pos
  have inside := matched.bounded.length_le
  apply List.length_pos_iff.mp
  rw [List.length_take]
  omega

/-- Every match has a rule of the lexicon. -/
theorem Matches.exists_rule {found : Match} (matched : Matches before place (.ok (some found)) between) :
    ∃ rule, before.rules[found.rule]? = some rule := by
  have inside := matched.bounded.rule_lt
  rw [langs, List.length_map, Array.length_toList] at inside
  exact ⟨_, Array.getElem?_eq_getElem inside⟩

/-- There is no match at a place where the source goes on. -/
inductive Fails (before : Lexicon Kind) (place : Place) : Error → Lexicon Kind → Prop where
  | grammar {error : Grammar.Error} {after : Lexicon Kind} : place.rest ≠ [] →
      Matches before place (.error error) after → Fails before place (.grammar error) after
  | unexpectedCharacter {c : Char} {rest : List Char} {after : Lexicon Kind} :
      place.rest = c :: rest → Matches before place (.ok none) after →
      Fails before place (.unexpectedCharacter c (place.span (place.skip 1))) after

/-- An error at a place is about the first character there, if it is about a character. -/
def Locates (source : String) (place : Place) (error : Error) : Prop :=
  ∀ c span, error = .unexpectedCharacter c span →
    (∃ rest, place.rest = c :: rest) ∧
      span.start.toNat = place.offset ∧ span.stop.toNat = place.offset + c.utf8Size ∧
      span.text? source = some (String.singleton c)

theorem Fails.locates (fails : Fails before place error after)
    (follows : place.Follows earlier source) (fits : source.utf8ByteSize < UInt32.size) :
    Locates source place error := by
  intro c span isError
  cases fails with
  | grammar => cases isError
  | @unexpectedCharacter c rest after goesOn =>
      obtain ⟨rfl, rfl⟩ := Error.unexpectedCharacter.inj isError
      obtain ⟨starts, stops, isText⟩ := follows.span_skip 1 fits
      refine ⟨⟨rest, goesOn⟩, starts, ?_, ?_⟩
      · rw [stops, Place.skip, goesOn, List.take_succ_cons, List.take_zero]
        rfl
      · rw [isText, goesOn, List.take_succ_cons, List.take_zero, String.singleton_eq_ofList]

/-- Pieces cover the beginning of a source up to a place. -/
structure Covers (source : String) (pieces : List (Piece Kind)) (place : Place) : Prop where
  /-- The texts of the pieces and the rest make up the source. -/
  isSource : source.toList = Piece.texts pieces ++ place.rest
  isOffset : place.offset = Text.byteLength (Piece.texts pieces)
  /-- The spans are not empty, and each starts where the one before it stops. -/
  contiguous : Span.Contiguous 0 (pieces.map Piece.span) place.offset
  nonempty : ∀ piece ∈ pieces, piece.text ≠ []
  /-- The span of a piece gives its text back. -/
  isText : ∀ piece ∈ pieces, piece.span.text? source = some (String.ofList piece.text)

section Covers

variable (covers : Covers source pieces place)

include covers

/-- There are not more pieces than characters. -/
theorem Covers.length_le : pieces.length ≤ source.toList.length := by
  have atLeast : pieces.length ≤ (Piece.texts pieces).length := by
    have nonempty := covers.nonempty
    clear covers
    induction pieces with
    | nil => simp
    | cons piece pieces inductionHypothesis =>
        have here := List.length_pos_iff.mpr (nonempty piece (by simp))
        have there := inductionHypothesis fun piece member => nonempty piece (by simp [member])
        simp only [Piece.texts, List.flatMap_cons, List.length_append, List.length_cons] at there ⊢
        omega
  rw [covers.isSource, List.length_append]
  omega

/-- If no text is left, the pieces end where the source ends. -/
theorem Covers.offset_eq (ends : place.rest = []) : place.offset = source.utf8ByteSize := by
  rw [covers.isOffset, ← Text.byteLength_toList, covers.isSource, ends, List.append_nil]

end Covers

/-- What calls for a next token answer where no more tokens follow. -/
inductive Ends (before : Lexicon Kind) (place : Place) :
    List (Except Error (Option (Token Kind))) → Lexicon Kind → Place → Prop where
  /-- There are no more calls. -/
  | stopped : Ends before place [] before place
  /-- The source ends. -/
  | finished (count : Nat) : place.rest = [] →
      Ends before place (List.replicate (count + 1) (.ok none)) before place
  /-- The first error ends the source. -/
  | failed {error : Error} {after : Lexicon Kind} (count : Nat) : Fails before place error after →
      Ends before place (.error error :: List.replicate count (.ok none)) after place.finish

/-- Only a missing match is answered with an error. -/
theorem Ends.fails {ending : List (Except Error (Option (Token Kind)))}
    (ends : Ends before place ending after next) (member : .error error ∈ ending) :
    Fails before place error after := by
  cases ends with
  | stopped => cases member
  | finished => simp at member
  | failed _ fails =>
      obtain rfl : error = _ := by simpa using member
      exact fails

variable [ToString Kind]

/-- The lexicon after it reported a piece. -/
def report (piece : Piece Kind) (lexicon : Lexicon Kind) : Lexicon Kind :=
  { lexicon with grammar := lexicon.grammar.note piece.event }

/-- Pieces are the longest matches from one place to another, one after the other. -/
inductive Consumes :
    Lexicon Kind → Place → List (Piece Kind) → Lexicon Kind → Place → Prop where
  | nothing {lexicon : Lexicon Kind} {place : Place} : Consumes lexicon place [] lexicon place
  | piece {before between after : Lexicon Kind} {place next : Place} {rule : Rule Kind}
      {found : Match} {pieces : List (Piece Kind)} :
      Matches before place (.ok (some found)) between →
      before.rules[found.rule]? = some rule →
      Consumes (between.report (rule.piece place found)) (place.skip found.length) pieces
        after next →
      Consumes before place (rule.piece place found :: pieces) after next

theorem Consumes.trans {pieces pieces' : List (Piece Kind)} {middle : Place}
    (first : Consumes before place pieces between middle)
    (second : Consumes between middle pieces' after next) :
    Consumes before place (pieces ++ pieces') after next := by
  induction first with
  | nothing => exact second
  | piece matched isRule _ inductionHypothesis =>
      exact .piece matched isRule (inductionHypothesis second)

/-- What a scan consumes before it answers. -/
inductive Scans (before : Lexicon Kind) (place : Place) :
    Scan Kind place → Lexicon Kind → Prop where
  | finished {pieces : List (Piece Kind)} {after : Lexicon Kind} {last : Place} :
      Consumes before place pieces after last → Piece.tokens pieces = [] → last.rest = [] →
      Scans before place .finished after
  | token {pieces : List (Piece Kind)} {token : Token Kind} {after : Lexicon Kind} {next : Place}
      {shorter : next.rest.length < place.rest.length} :
      Consumes before place pieces after next → Piece.tokens pieces = [token] →
      Scans before place (.token token next shorter) after
  | failed {pieces : List (Piece Kind)} {error : Error} {between after : Lexicon Kind}
      {last : Place} :
      Consumes before place pieces between last → Piece.tokens pieces = [] →
      Fails between last error after → Scans before place (.failed error) after

/-- A scan may start with a skipped text. -/
theorem Scans.skip {rule : Rule Kind} {found : Match} {answer : Scan Kind (place.skip found.length)}
    (matched : Matches before place (.ok (some found)) between)
    (isRule : before.rules[found.rule]? = some rule) (isSkipped : rule.kind = none)
    (shorter : (place.skip found.length).rest.length < place.rest.length)
    (scans : Scans (between.report (rule.piece place found)) (place.skip found.length) answer
      after) :
    Scans before place (answer.widen shorter) after := by
  have tokens : ∀ pieces, Piece.tokens (rule.piece place found :: pieces) =
      Piece.tokens pieces := by
    intro pieces
    simp [Piece.tokens, Piece.token?, Rule.piece, isSkipped, List.filterMap_cons]
  cases scans with
  | finished consumes noTokens ends =>
      exact .finished (.piece matched isRule consumes) ((tokens _).trans noTokens) ends
  | token consumes isToken =>
      exact .token (.piece matched isRule consumes) ((tokens _).trans isToken)
  | failed consumes noTokens fails =>
      exact .failed (.piece matched isRule consumes) ((tokens _).trans noTokens) fails

theorem scans (before : Lexicon Kind) (place : Place) :
    Gives (scan place) before (Scans before place) := by
  induction isSize : place.rest.length using Nat.strong_induction_on generalizing place before with
  | _ size inductionHypothesis =>
      rw [Lexicon.scan]
      split
      · rename_i ends
        exact .finished .nothing rfl ends
      · rename_i c rest goesOn
        refine (gives_bind _ _ _).mpr ((gives_get _).mpr ((gives_bind _ _ _).mpr ?_))
        obtain ⟨answer, between, matched⟩ : ∃ answer between,
            Matches before place answer between := ⟨_, _, rfl⟩
        refine gives_of_eq matched ?_
        rcases answer with error | _ | found
        · exact .failed .nothing rfl (.grammar (by simp [goesOn]) matched)
        · exact .failed .nothing rfl (.unexpectedCharacter goesOn matched)
        · obtain ⟨rule, isRule⟩ := matched.exists_rule
          have shorter : (place.skip found.length).rest.length < place.rest.length :=
            Place.length_skip_lt found.length_pos (by simp [goesOn])
          dsimp only
          rw [isRule, Option.bind_some]
          cases isKind : rule.kind with
          | some kind =>
              have isEvent : (rule.piece place found).event =
                  .tokenFound (toString kind) (place.span (place.skip found.length)) := by
                simp [Piece.event, Rule.piece, isKind]
              dsimp only
              rw [← isEvent]
              refine (gives_bind _ _ _).mpr (.token (.piece matched isRule .nothing) ?_)
              simp [Piece.tokens, Piece.token?, Rule.piece, isKind]
          | none =>
              have isEvent : (rule.piece place found).event =
                  .textSkipped (place.span (place.skip found.length)) := by
                simp [Piece.event, Rule.piece, isKind]
              dsimp only
              rw [← isEvent]
              refine (gives_bind _ _ _).mpr ((gives_bind _ _ _).mpr ?_)
              refine (inductionHypothesis _ (isSize ▸ shorter) _ _ rfl).mono ?_
              intro answer after scans
              exact scans.skip matched isRule isKind shorter

section Consumes

variable (consumes : Consumes before place pieces after next)

include consumes

theorem Consumes.nonempty : ∀ piece ∈ pieces, piece.text ≠ [] := by
  induction consumes with
  | nothing => exact nofun
  | piece matched isRule _ inductionHypothesis =>
      exact List.forall_mem_cons.mpr ⟨matched.take_ne_nil, inductionHypothesis⟩

variable (follows : place.Follows earlier source)

include follows

theorem Consumes.reaches : next.Follows (earlier ++ Piece.texts pieces) source := by
  induction consumes generalizing earlier with
  | nothing => simpa [Piece.texts] using follows
  | piece _ _ _ inductionHypothesis =>
      have next := inductionHypothesis (follows.skip _)
      simpa [Piece.texts, Rule.piece] using next

variable (fits : source.utf8ByteSize < UInt32.size)

include fits

theorem Consumes.contiguous :
    Span.Contiguous place.offset (pieces.map Piece.span) next.offset := by
  induction consumes generalizing earlier with
  | nothing => exact .nil
  | @piece before between after place next rule found pieces matched _ _ inductionHypothesis =>
      obtain ⟨starts, stops, _⟩ := follows.span_skip found.length fits
      have rest := inductionHypothesis (follows.skip _)
      rw [← starts]
      rw [← stops] at rest
      apply Span.Contiguous.cons _ rest
      have nonempty := List.length_pos_iff.mpr matched.take_ne_nil
      have bytes := Text.length_le_byteLength (place.rest.take found.length)
      change (place.span _).start.toNat < (place.span _).stop.toNat
      rw [starts, stops, Place.skip]
      dsimp only
      omega

theorem Consumes.isText : ∀ piece ∈ pieces,
    piece.span.text? source = some (String.ofList piece.text) := by
  induction consumes generalizing earlier with
  | nothing => exact nofun
  | @piece before between after place next rule found pieces matched _ _ inductionHypothesis =>
      obtain ⟨_, _, isText⟩ := follows.span_skip found.length fits
      exact List.forall_mem_cons.mpr ⟨isText, inductionHypothesis (follows.skip _)⟩

end Consumes

theorem Consumes.covers (consumes : Consumes before (.start source) pieces after place)
    (fits : source.utf8ByteSize < UInt32.size) : Covers source pieces place where
  isSource := (consumes.reaches (Place.start_follows source)).isSource
  isOffset := (consumes.reaches (Place.start_follows source)).isOffset
  contiguous := consumes.contiguous (Place.start_follows source) fits
  nonempty := consumes.nonempty
  isText := consumes.isText (Place.start_follows source) fits

/-- The answers of some calls for a next token, and the place after them. -/
def nextTokens (count : Nat) (place : Place) :
    StateM (Lexicon Kind) (List (Except Error (Option (Token Kind))) × Place) :=
  match count with
  | 0 => return ([], place)
  | count + 1 => do
      let (answer, next) ← nextToken place
      let (answers, last) ← nextTokens count next
      return (answer :: answers, last)

theorem Consumes.finish (consumes : Consumes before place pieces after next) :
    next.finish = place.finish := by
  induction consumes with
  | nothing => rfl
  | piece _ _ _ inductionHypothesis => exact inductionHypothesis.trans (Place.finish_skip _ _)

theorem gives_scan_of_rest_eq_nil (ends : place.rest = []) :
    Gives (scan place) lexicon fun scanned after => scanned = .finished ∧ after = lexicon := by
  rw [scan]
  split
  · exact ⟨rfl, rfl⟩
  · simp_all

/-- At the end of a source there are no more tokens. -/
theorem gives_nextTokens_of_rest_eq_nil (count : Nat) (ends : place.rest = []) :
    Gives (nextTokens count place) lexicon fun result after =>
      result = (List.replicate count (.ok none), place) ∧ after = lexicon := by
  induction count with
  | zero => exact ⟨rfl, rfl⟩
  | succ count inductionHypothesis =>
      refine (gives_bind _ _ _).mpr ((gives_bind _ _ _).mpr
        ((gives_scan_of_rest_eq_nil ends).mono ?_))
      rintro _ _ ⟨rfl, rfl⟩
      refine (gives_pure _ _).mpr ((gives_bind _ _ _).mpr ?_)
      dsimp only
      rw [Place.finish_eq_self ends]
      refine inductionHypothesis.mono ?_
      rintro _ _ ⟨rfl, rfl⟩
      exact ⟨rfl, rfl⟩

/-- Calls for a next token consume pieces and answer with the tokens among them, until the source
ends or there is no match. -/
theorem nextTokens_answers (count : Nat) (before : Lexicon Kind) (place : Place) :
    Gives (nextTokens count place) before fun result after =>
      ∃ pieces between middle ending, Consumes before place pieces between middle ∧
        Ends between middle ending after result.2 ∧
        result.1 = (Piece.tokens pieces).map (fun token => .ok (some token)) ++ ending := by
  induction count generalizing before place with
  | zero => exact ⟨[], before, place, [], .nothing, .stopped, rfl⟩
  | succ count inductionHypothesis =>
      have atEnd : place.finish.rest = [] := by rw [Place.finish_eq]
      refine (gives_bind _ _ _).mpr ((gives_bind _ _ _).mpr ((scans before place).mono ?_))
      intro scanned between scans
      cases scans with
      | @finished pieces after last consumes noTokens ends =>
          have isLast : place.finish = last :=
            consumes.finish.symm.trans (Place.finish_eq_self ends)
          refine (gives_pure _ _).mpr ((gives_bind _ _ _).mpr
            ((gives_nextTokens_of_rest_eq_nil count atEnd).mono ?_))
          rintro _ _ ⟨rfl, rfl⟩
          refine (gives_pure _ _).mpr ⟨pieces, _, last, .replicate (count + 1) (.ok none),
            consumes, ?_, by simp [noTokens, List.replicate_succ]⟩
          dsimp only
          rw [isLast]
          exact .finished count ends
      | @token pieces token after next shorter consumes isToken =>
          refine (gives_pure _ _).mpr ((gives_bind _ _ _).mpr
            ((inductionHypothesis _ next).mono ?_))
          rintro result after ⟨pieces', between, middle, ending, consumes', ends, answers⟩
          refine (gives_pure _ _).mpr ⟨pieces ++ pieces', between, middle, ending,
            consumes.trans consumes', ends, ?_⟩
          dsimp only
          rw [answers, Piece.tokens_append, isToken]
          rfl
      | @failed pieces error between after last consumes noTokens fails =>
          refine (gives_pure _ _).mpr ((gives_bind _ _ _).mpr
            ((gives_nextTokens_of_rest_eq_nil count atEnd).mono ?_))
          rintro _ _ ⟨rfl, rfl⟩
          refine (gives_pure _ _).mpr ⟨pieces, _, last, .error error :: .replicate count (.ok none),
            consumes, ?_, by simp [noTokens]⟩
          dsimp only
          rw [← consumes.finish]
          exact .failed count fails

/-- All tokens of a source are those among the pieces up to its end, or there is an error where the
pieces end. -/
theorem tokensFrom_answers (before : Lexicon Kind) (place : Place) :
    Gives (tokensFrom place) before fun answer after =>
      ∃ pieces between last, Consumes before place pieces between last ∧
        match answer with
        | .ok tokens => tokens = Piece.tokens pieces ∧ last.rest = [] ∧ after = between
        | .error error => Fails between last error after := by
  induction isSize : place.rest.length using Nat.strong_induction_on generalizing place before with
  | _ size inductionHypothesis =>
      rw [tokensFrom]
      refine (gives_bind _ _ _).mpr ((scans before place).mono ?_)
      intro scanned between scans
      cases scans with
      | finished consumes noTokens ends =>
          exact ⟨_, _, _, consumes, noTokens.symm, ends, rfl⟩
      | failed consumes noTokens fails => exact ⟨_, _, _, consumes, fails⟩
      | @token pieces token after next shorter consumes isToken =>
          refine (gives_bind _ _ _).mpr
            ((inductionHypothesis _ (isSize ▸ shorter) between next rfl).mono ?_)
          rintro (error | tokens) after ⟨pieces', between, last, consumes', holds⟩
          · exact ⟨pieces ++ pieces', between, last, consumes.trans consumes', holds⟩
          · obtain ⟨rfl, ends, rfl⟩ := holds
            refine ⟨pieces ++ pieces', _, last, consumes.trans consumes', ?_, ends, rfl⟩
            rw [Piece.tokens_append, isToken]
            rfl

/-- Tokens partition their source.  However often a lexicon is asked for the next token, it
consumes longest matches from the start of the source on, one behind the other; what is left is
where it stopped, ended or failed.  If all tokens of the source are asked for and none fails, every
byte belongs to exactly one token or skipped text. -/
theorem tokens_partition (lexicon : Lexicon Kind) (source : String)
    (fits : source.utf8ByteSize < UInt32.size - 1) :
    (∀ count, Gives (nextTokens count (.start source)) lexicon fun result after =>
      ∃ pieces between place ending, Consumes lexicon (.start source) pieces between place ∧
        Covers source pieces place ∧ pieces.length ≤ source.toList.length ∧
        result.1 = (Piece.tokens pieces).map (fun token => .ok (some token)) ++ ending ∧
        Ends between place ending after result.2 ∧
        ∀ error, .error error ∈ ending → Locates source place error) ∧
    Gives (tokens source) lexicon fun answer after =>
      ∃ pieces between place, Consumes lexicon (.start source) pieces between place ∧
        Covers source pieces place ∧ pieces.length ≤ source.toList.length ∧
        match answer with
        | .ok tokens => tokens = Piece.tokens pieces ∧ place.rest = [] ∧
            place.offset = source.utf8ByteSize ∧
            ∀ offset < source.utf8ByteSize,
              ∃! span, span ∈ pieces.map Piece.span ∧ span.Covers offset
        | .error error => Fails between place error after ∧ Locates source place error := by
  have fits : source.utf8ByteSize < UInt32.size := Nat.lt_of_lt_pred fits
  constructor
  · intro count
    refine (nextTokens_answers count lexicon (.start source)).mono ?_
    rintro result after ⟨pieces, between, place, ending, consumes, ends, answers⟩
    have covers := consumes.covers fits
    refine ⟨pieces, between, place, ending, consumes, covers, covers.length_le, answers, ends, ?_⟩
    intro error member
    have fails := ends.fails member
    exact fails.locates (consumes.reaches (Place.start_follows source)) fits
  · refine (tokensFrom_answers lexicon (.start source)).mono ?_
    rintro answer after ⟨pieces, between, place, consumes, holds⟩
    have covers := consumes.covers fits
    refine ⟨pieces, between, place, consumes, covers, covers.length_le, ?_⟩
    cases answer with
    | error error =>
        exact ⟨holds, holds.locates (consumes.reaches (Place.start_follows source)) fits⟩
    | ok tokens =>
        obtain ⟨isTokens, ends, _⟩ := holds
        have isEnd := covers.offset_eq ends
        refine ⟨isTokens, ends, isEnd, fun offset isBefore => ?_⟩
        rw [← isEnd] at isBefore
        exact covers.contiguous.existsUnique_covers offset.zero_le isBefore

/-- The second character of this source takes two bytes. -/
theorem tokens_partition_charAndOthers :
    "aé".utf8ByteSize < UInt32.size - 1 ∧
      Gives (tokens "aé") charAndOthers fun answer _ =>
        ∃ pieces place, Covers "aé" pieces place ∧ pieces.length ≤ 2 ∧
          match answer with
          | .ok tokens => tokens = Piece.tokens pieces ∧ place.offset = 3 ∧
              ∀ offset < 3, ∃! span, span ∈ pieces.map Piece.span ∧ span.Covers offset
          | .error error => Locates "aé" place error := by
  refine ⟨by decide, ?_⟩
  refine (tokens_partition charAndOthers "aé" (by decide)).2.mono ?_
  rintro (error | tokens) _ ⟨pieces, _, place, _, covers, atMost, holds⟩
  · exact ⟨pieces, place, covers, atMost, holds.2⟩
  · exact ⟨pieces, place, covers, atMost, holds.1, holds.2.2⟩

end Lexicon

end Residual
