import Mathlib.Data.String.Basic
import Residual.Lexicon.Tokens

/-!
# Spans cover texts

Spans are contiguous if each is non-empty and starts where the one before it stops.  Every offset
from the start of the first to the stop of the last is then covered by exactly one of them.  The
span of the bytes where a text stands in its source covers exactly that text.
-/

set_option autoImplicit false

namespace Residual

namespace Text

theorem byteLength_eq_utf8Len (text : List Char) : byteLength text = String.utf8Len text := by
  induction text with
  | nil => rfl
  | cons c rest inductionHypothesis =>
      rw [byteLength_cons, String.utf8Len_cons, inductionHypothesis, Nat.add_comm]

theorem byteLength_toList (source : String) : byteLength source.toList = source.utf8ByteSize := by
  rw [byteLength_eq_utf8Len, String.utf8Len_toList]

end Text

/-- The bytes of a beginning of a source end at a boundary of characters. -/
theorem isValid_byteLength (source : String) (earlier later : List Char)
    (isSource : source.toList = earlier ++ later) :
    (⟨Text.byteLength earlier⟩ : String.Pos.Raw).IsValid source := by
  apply String.Pos.Raw.isValid_iff_exists_append.mpr
  refine ⟨String.ofList earlier, String.ofList later, ?_, ?_⟩
  · rw [← String.ofList_append, ← isSource, String.ofList_toList]
  · rw [String.rawEndPos_ofList, Text.byteLength_eq_utf8Len]

namespace Span

variable {source : String} {earlier text later : List Char}

/-- Where a text stands in a source. -/
def ofTexts (earlier text : List Char) : Span :=
  .ofOffsets (Text.byteLength earlier) (Text.byteLength earlier + Text.byteLength text)

section Fits

variable (isSource : source.toList = earlier ++ text ++ later)
  (fits : source.utf8ByteSize < UInt32.size)

include isSource fits

theorem ofTexts_start : (ofTexts earlier text).start.toNat = Text.byteLength earlier := by
  apply ofOffsets_start_of_lt
  have size := Text.byteLength_toList source
  simp only [isSource, Text.byteLength_append] at size
  omega

theorem ofTexts_stop :
    (ofTexts earlier text).stop.toNat = Text.byteLength earlier + Text.byteLength text := by
  apply ofOffsets_stop_of_lt
  have size := Text.byteLength_toList source
  simp only [isSource, Text.byteLength_append] at size
  omega

theorem text?_ofTexts : (ofTexts earlier text).text? source = some (String.ofList text) := by
  have validStart := isValid_byteLength source earlier (text ++ later) (by simp [isSource])
  have validStop := isValid_byteLength source (earlier ++ text) later isSource
  rw [Text.byteLength_append] at validStop
  have isString : source = String.ofList (earlier ++ text ++ later) := by
    rw [← isSource, String.ofList_toList]
  unfold text?
  rw [ofTexts_start isSource fits, ofTexts_stop isSource fits, if_pos]
  · rw [Text.byteLength_eq_utf8Len, Text.byteLength_eq_utf8Len, isString,
      String.extract_of_valid]
  · refine ⟨?_, ?_, ?_⟩
    · simp [String.Pos.Raw.le_iff]
    · simpa using validStart
    · simpa using validStop

end Fits

/-- The byte at an offset is one of the bytes of a span. -/
def Covers (span : Span) (offset : Nat) : Prop :=
  span.start.toNat ≤ offset ∧ offset < span.stop.toNat

/-- Non-empty spans from one offset to another, each of which starts where the one before it
stops. -/
inductive Contiguous : Nat → List Span → Nat → Prop where
  | nil {offset : Nat} : Contiguous offset [] offset
  | cons {span : Span} {spans : List Span} {stop : Nat} : span.start.toNat < span.stop.toNat →
      Contiguous span.stop.toNat spans stop → Contiguous span.start.toNat (span :: spans) stop

variable {start stop offset : Nat} {span : Span} {spans : List Span}

theorem Contiguous.le (contiguous : Contiguous start spans stop) : start ≤ stop := by
  induction contiguous with
  | nil => exact Nat.le_refl _
  | cons nonempty _ inductionHypothesis => exact nonempty.le.trans inductionHypothesis

/-- No span starts before the first one. -/
theorem Contiguous.le_of_covers (contiguous : Contiguous start spans stop) (member : span ∈ spans)
    (covers : span.Covers offset) : start ≤ offset := by
  induction contiguous with
  | nil => cases member
  | cons nonempty _ inductionHypothesis =>
      rcases List.mem_cons.mp member with rfl | member
      · exact covers.1
      · exact nonempty.le.trans (inductionHypothesis member)

/-- Every byte belongs to exactly one span. -/
theorem Contiguous.existsUnique_covers (contiguous : Contiguous start spans stop)
    (isAfter : start ≤ offset) (isBefore : offset < stop) :
    ∃! span, span ∈ spans ∧ span.Covers offset := by
  induction contiguous with
  | nil => omega
  | @cons first rest stop nonempty contiguous inductionHypothesis =>
      by_cases inFirst : offset < first.stop.toNat
      · refine ⟨first, ⟨by simp, isAfter, inFirst⟩, ?_⟩
        rintro other ⟨member, covers⟩
        rcases List.mem_cons.mp member with same | member
        · exact same
        · have := contiguous.le_of_covers member covers
          omega
      · obtain ⟨span, ⟨member, covers⟩, unique⟩ :=
          inductionHypothesis (Nat.le_of_not_lt inFirst) isBefore
        refine ⟨span, ⟨List.mem_cons_of_mem _ member, covers⟩, ?_⟩
        rintro other ⟨member', covers'⟩
        rcases List.mem_cons.mp member' with rfl | member'
        · exact absurd covers'.2 inFirst
        · exact unique other ⟨member', covers'⟩

end Span

namespace Place

variable {place : Place} {earlier : List Char} {source : String}

/-- The place stands in a source behind a text. -/
structure Follows (place : Place) (earlier : List Char) (source : String) : Prop where
  isSource : source.toList = earlier ++ place.rest
  isOffset : place.offset = Text.byteLength earlier

theorem start_follows (source : String) : (start source).Follows [] source :=
  ⟨rfl, rfl⟩

theorem finish_eq (place : Place) :
    place.finish = ⟨place.offset + Text.byteLength place.rest, []⟩ := by
  simp [finish, skip]

/-- Skipping some characters does not move the end of the source. -/
theorem finish_skip (place : Place) (length : Nat) : (place.skip length).finish = place.finish := by
  have bytes : Text.byteLength (place.rest.take length) + Text.byteLength (place.rest.drop length) =
      Text.byteLength place.rest := by
    rw [← Text.byteLength_append, List.take_append_drop]
  rw [finish_eq, finish_eq, skip]
  dsimp only
  rw [Nat.add_assoc, bytes]

theorem finish_eq_self (ends : place.rest = []) : place.finish = place := by
  obtain ⟨offset, rest⟩ := place
  cases ends
  rfl

section Skip

variable (follows : place.Follows earlier source) (length : Nat)

include follows

theorem Follows.skip : (place.skip length).Follows (earlier ++ place.rest.take length) source where
  isSource := by simp [Place.skip, follows.isSource]
  isOffset := by simp [Place.skip, follows.isOffset]

theorem Follows.span :
    place.span (place.skip length) = .ofTexts earlier (place.rest.take length) := by
  simp [Place.span, Place.skip, Span.ofTexts, follows.isOffset]

theorem Follows.isSource_skip : source.toList =
    earlier ++ place.rest.take length ++ place.rest.drop length := by
  simp [follows.isSource]

/-- The span of what is skipped, if the source is not too long. -/
theorem Follows.span_skip (fits : source.utf8ByteSize < UInt32.size) :
    (place.span (place.skip length)).start.toNat = place.offset ∧
      (place.span (place.skip length)).stop.toNat = (place.skip length).offset ∧
      (place.span (place.skip length)).text? source =
        some (String.ofList (place.rest.take length)) := by
  have isSource := follows.isSource_skip length
  rw [follows.span length, Span.ofTexts_start isSource fits, Span.ofTexts_stop isSource fits,
    Span.text?_ofTexts isSource fits, follows.isOffset, (follows.skip length).isOffset,
    Text.byteLength_append]
  exact ⟨rfl, rfl, rfl⟩

end Skip

end Place

end Residual
