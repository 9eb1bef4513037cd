import Mathlib.Data.List.Basic
import Residual.Text.Quoted

/-!
# Texts that end by themselves

A way of writing values down is self-delimiting if the value and the text after it can be told from
any text that begins with a written value.  Escaped characters are, and so are quoted strings and
whatever is written of such parts between fixed characters.
-/

set_option autoImplicit false

namespace Residual.Text

variable {Value : Type} {stop : Char}

/-- What is written of different values differs, whatever follows it. -/
def SelfDelimiting (write : Value → List Char) : Prop :=
  ∀ {x y : Value} {rest rest' : List Char}, write x ++ rest = write y ++ rest' →
    x = y ∧ rest = rest'

/-- The first occurrence of a character ends what stands before it. -/
theorem append_cons_inj_of_notMem {before before' rest rest' : List Char} (absent : stop ∉ before)
    (absent' : stop ∉ before') (same : before ++ stop :: rest = before' ++ stop :: rest') :
    before = before' ∧ rest = rest' := by
  induction before generalizing before' with
  | nil =>
      cases before' with
      | nil => exact ⟨rfl, (List.cons.inj same).2⟩
      | cons c _ => exact absurd (List.cons.inj same).1 (by grind)
  | cons c before inductionHypothesis =>
      cases before' with
      | nil => exact absurd (List.cons.inj same).1 (by grind)
      | cons c' before' =>
          obtain ⟨rfl, sameTail⟩ := List.cons.inj same
          obtain ⟨rfl, rfl⟩ := inductionHypothesis (List.not_mem_of_not_mem_cons absent)
            (List.not_mem_of_not_mem_cons absent') sameTail
          exact ⟨rfl, rfl⟩

/-- Values that are written one after the other up to a character that none of them begins with. -/
theorem SelfDelimiting.sequence {write : Value → List Char} (delimiting : SelfDelimiting write)
    (inner : ∀ x, ∃ c rest, write x = c :: rest ∧ c ≠ stop) :
    SelfDelimiting fun values : List Value => values.flatMap write ++ [stop] := by
  intro values values' rest rest' same
  simp only [List.append_assoc, List.singleton_append] at same
  induction values generalizing values' with
  | nil =>
      cases values' with
      | nil => exact ⟨rfl, (List.cons.inj same).2⟩
      | cons y _ =>
          obtain ⟨c, tail, written, other⟩ := inner y
          simp [written, other.symm] at same
  | cons x values inductionHypothesis =>
      obtain ⟨c, tail, written, other⟩ := inner x
      cases values' with
      | nil => simp [written, other] at same
      | cons y values' =>
          simp only [List.flatMap_cons, List.append_assoc] at same
          obtain ⟨rfl, sameTail⟩ := delimiting same
          obtain ⟨rfl, rfl⟩ := inductionHypothesis sameTail
          exact ⟨rfl, rfl⟩

/-! ## Numbers -/

theorem digitChar_inj : ∀ m < 16, ∀ n < 16, Nat.digitChar m = Nat.digitChar n → m = n := by
  decide

theorem digitChar_ne_brace : ∀ n < 16, Nat.digitChar n ≠ '\x7d' := by
  decide

/-- Numbers are determined by their hexadecimal digits. -/
theorem toDigits_inj {m n : Nat} (same : Nat.toDigits 16 m = Nat.toDigits 16 n) : m = n := by
  induction m using Nat.strongRecOn generalizing n with
  | ind m inductionHypothesis =>
      have last : ∀ k, k % 16 < 16 := fun k => Nat.mod_lt k (by decide)
      by_cases small : m < 16 <;> by_cases small' : n < 16
      · rw [Nat.toDigits_of_lt_base small, Nat.toDigits_of_lt_base small'] at same
        exact digitChar_inj m small n small' (List.singleton_inj.mp same)
      · rw [Nat.toDigits_of_lt_base small, Nat.toDigits_of_base_le (by decide) (by omega)] at same
        simp [List.singleton_eq_append_iff] at same
      · rw [Nat.toDigits_of_lt_base small', Nat.toDigits_of_base_le (by decide) (by omega)] at same
        simp [List.append_eq_singleton_iff] at same
      · rw [Nat.toDigits_of_base_le (by decide) (by omega),
          Nat.toDigits_of_base_le (by decide) (Nat.le_of_not_lt small')] at same
        obtain ⟨sameFront, sameLast⟩ := List.append_inj' same rfl
        have front := inductionHypothesis (m / 16) (by omega) sameFront
        have unit := digitChar_inj _ (last m) _ (last n) (List.singleton_inj.mp sameLast)
        omega

theorem brace_notMem_toDigits (n : Nat) : '\x7d' ∉ Nat.toDigits 16 n := by
  induction n using Nat.strongRecOn with
  | ind n inductionHypothesis =>
      by_cases small : n < 16
      · rw [Nat.toDigits_of_lt_base small, List.mem_singleton]
        exact (digitChar_ne_brace n small).symm
      · rw [Nat.toDigits_of_base_le (by decide) (by omega), List.mem_append, List.mem_singleton]
        rintro (member | same)
        · exact inductionHypothesis (n / 16) (by omega) member
        · exact digitChar_ne_brace _ (Nat.mod_lt n (by decide)) same.symm

/-! ## Escaped characters -/

theorem toList_escapeAmong (special : List Char) (c : Char) :
    (escapeAmong special c).toList = if c ∈ special then ['\\', c] else [c] := by
  unfold escapeAmong
  split <;> simp

/-- Where the backslash is special it marks the characters that are. -/
theorem selfDelimiting_escapeAmong {special : List Char} (backslash : '\\' ∈ special) :
    SelfDelimiting fun c => (escapeAmong special c).toList := by
  intro c c' rest rest' same
  simp only [toList_escapeAmong] at same
  by_cases isSpecial : c ∈ special <;> by_cases isSpecial' : c' ∈ special <;>
    simp only [isSpecial, isSpecial', if_true, if_false, List.cons_append, List.nil_append,
      List.cons.injEq, true_and] at same
  · exact same
  · exact absurd (same.1 ▸ backslash) isSpecial'
  · exact absurd (same.1 ▸ backslash) isSpecial
  · exact same

/-- The characters that are shown by a backslash and one more character in a quoted string. -/
def shortEscapes : List (Char × Char) :=
  [('\x00', '0'), ('\t', 't'), ('\r', 'r'), ('\n', 'n'), ('\\', '\\'), ('"', '"')]

/-- The ways in which a character is shown in a quoted string. -/
inductive Escaped : Char → List Char → Prop where
  | short {c mark : Char} : (c, mark) ∈ shortEscapes → Escaped c ['\\', mark]
  | codePoint (c : Char) :
      Escaped c ('\\' :: 'u' :: '\x7b' :: (Nat.toDigits 16 c.toNat ++ ['\x7d']))
  | plain {c : Char} : c ≠ '\\' → c ≠ '"' → Escaped c [c]

theorem escaped_escape (c : Char) : Escaped c (escape '"' c).toList := by
  unfold escape
  split_ifs with isZero isTab isReturn isNewline isBackslash isQuote isHidden
  · exact isZero ▸ .short (by decide)
  · exact isTab ▸ .short (by decide)
  · exact isReturn ▸ .short (by decide)
  · exact isNewline ▸ .short (by decide)
  · exact isBackslash ▸ .short (by decide)
  · exact isQuote ▸ .short (by decide)
  · simpa [codePointEscape] using Escaped.codePoint c
  · simpa using Escaped.plain isBackslash isQuote

theorem shortEscapes_inj : ∀ entry ∈ shortEscapes, ∀ entry' ∈ shortEscapes,
    entry.2 = entry'.2 → entry.1 = entry'.1 := by
  decide

theorem ne_of_mem_shortEscapes : ∀ entry ∈ shortEscapes, entry.2 ≠ 'u' := by
  decide

theorem selfDelimiting_escape : SelfDelimiting fun c => (escape '"' c).toList := by
  intro c c' rest rest' same
  have shown := escaped_escape c
  have shown' := escaped_escape c'
  dsimp only at same
  generalize (escape '"' c).toList = text at same shown
  generalize (escape '"' c').toList = text' at same shown'
  cases shown with
  | short isShort =>
      cases shown' with
      | short isShort' =>
          simp only [List.cons_append, List.nil_append, List.cons.injEq, true_and] at same
          exact ⟨shortEscapes_inj _ isShort _ isShort' same.1, same.2⟩
      | codePoint =>
          simp only [List.cons_append, List.nil_append, List.cons.injEq, true_and] at same
          exact absurd same.1 (ne_of_mem_shortEscapes _ isShort)
      | plain notBackslash _ => exact absurd (List.cons.inj same).1.symm notBackslash
  | codePoint =>
      cases shown' with
      | short isShort' =>
          simp only [List.cons_append, List.nil_append, List.cons.injEq, true_and] at same
          exact absurd same.1.symm (ne_of_mem_shortEscapes _ isShort')
      | codePoint =>
          simp only [List.cons_append, List.append_assoc, List.nil_append, List.cons.injEq,
            true_and] at same
          obtain ⟨sameDigits, sameRest⟩ := append_cons_inj_of_notMem (brace_notMem_toDigits _)
            (brace_notMem_toDigits _) same
          exact ⟨Char.toNat_inj.mp (toDigits_inj sameDigits), sameRest⟩
      | plain notBackslash _ => exact absurd (List.cons.inj same).1.symm notBackslash
  | plain notBackslash _ =>
      cases shown' with
      | short _ | codePoint => exact absurd (List.cons.inj same).1 notBackslash
      | plain _ _ => exact List.cons.inj same

/-- What is shown of a character does not begin with a quote. -/
theorem exists_escape_eq_cons (c : Char) :
    ∃ first rest, (escape '"' c).toList = first :: rest ∧ first ≠ '"' := by
  have shown := escaped_escape c
  generalize (escape '"' c).toList = text at shown
  cases shown with
  | short _ | codePoint => exact ⟨_, _, rfl, by decide⟩
  | plain _ notQuote => exact ⟨_, _, rfl, notQuote⟩

theorem toList_quote (text : String) : (quote text).toList =
    '"' :: (text.toList.flatMap (fun c => (escape '"' c).toList) ++ ['"']) := by
  simp [quote, String.toList_join, List.flatMap_map]

/-- A quoted string ends with its second quote. -/
theorem selfDelimiting_quote : SelfDelimiting fun text => (quote text).toList := by
  intro text text' rest rest' same
  simp only [toList_quote, List.cons_append, List.cons.injEq, true_and] at same
  obtain ⟨sameText, sameRest⟩ := selfDelimiting_escape.sequence exists_escape_eq_cons same
  exact ⟨String.toList_injective sameText, sameRest⟩

end Residual.Text
