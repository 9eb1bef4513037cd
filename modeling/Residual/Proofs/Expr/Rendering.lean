import Residual.Proofs.Expr.Related
import Residual.Proofs.Expr.Tree
import Residual.Proofs.Text.Delimited

/-!
# Renderings can be read in one way only

A rendering is a sequence of fragments: characters, ranges, strings, counts and the signs of the
operators.  The fragments can be told from their texts, since each of them is self-delimiting and they
begin with different characters.  The tree can be told from its fragments: `readTree` reads it.
-/

set_option autoImplicit false

namespace Residual

/-- The signs of a rendering. -/
inductive Sign where
  | any
  | empty
  | nil
  | bar
  | complement
  | option
  | plus
  | star
  | opening
  | closing
  deriving DecidableEq

/-- The parts of a rendering. -/
inductive Fragment where
  | sign (sign : Sign)
  | char (c : Char)
  | range (low high : Char)
  | token (text : String)
  | count (count : Count)

def Sign.char : Sign → Char
  | any => '.'
  | empty => 'ε'
  | nil => '∅'
  | bar => '|'
  | complement => '¬'
  | option => '?'
  | plus => '+'
  | star => '*'
  | opening => '('
  | closing => ')'

/-- The text of a part of a rendering. -/
def Fragment.text : Fragment → List Char
  | sign s => [s.char]
  | char c => (Text.escapeAmong metacharacters c).toList
  | range low high =>
      '[' :: ((Text.escapeAmong rangeMetacharacters low).toList ++
        '-' :: ((Text.escapeAmong rangeMetacharacters high).toList ++ [']']))
  | token text => (Text.quote text).toList
  | count n => '\x7b' :: ((toString n).toList ++ ['\x7d'])

/-! ## Texts of fragments -/

theorem Sign.char_inj : ∀ s s' : Sign, s.char = s'.char → s = s' := by
  intro s s'
  cases s <;> cases s' <;> decide

theorem Sign.char_ne (s : Sign) : s.char ≠ '[' ∧ s.char ≠ '"' ∧ s.char ≠ '\x7b' := by
  cases s <;> decide

/-- Decimal digits, or the sign of infinity. -/
def Count.digits : Count → List Char
  | finite times => Nat.toDigits 10 times
  | infinite => ['∞']

theorem Count.toList_toString (n : Count) : (toString n).toList = n.digits := by
  cases n with
  | infinite => rfl
  | finite times =>
      change (Nat.repr times).toList = Nat.toDigits 10 times
      rw [Nat.repr_eq_ofList_toDigits, String.toList_ofList]

theorem isDigit_of_mem_toDigits {c : Char} {times : Nat} (member : c ∈ Nat.toDigits 10 times) :
    c.isDigit = true :=
  Nat.isDigit_of_mem_toDigits (by decide) (by decide) member

theorem Count.toString_inj {n n' : Count} (same : (toString n).toList = (toString n').toList) :
    n = n' := by
  rw [toList_toString, toList_toString] at same
  have infinite : ∀ times, Nat.toDigits 10 times ≠ ['∞'] := by
    intro times same
    have member : '∞' ∈ Nat.toDigits 10 times := by simp [same]
    exact absurd (isDigit_of_mem_toDigits member) (by decide)
  cases n with
  | infinite =>
      cases n' with
      | infinite => rfl
      | finite times => exact absurd same.symm (infinite times)
  | finite times =>
      cases n' with
      | infinite => exact absurd same (infinite times)
      | finite times' =>
          have same : Nat.toDigits 10 times = Nat.toDigits 10 times' := same
          rw [← Nat.ofDigitChars_ten_toDigits (n := times), same, Nat.ofDigitChars_ten_toDigits]

theorem Count.brace_notMem (n : Count) : '\x7d' ∉ (toString n).toList := by
  rw [toList_toString]
  cases n with
  | infinite => decide
  | finite times => exact fun member => absurd (isDigit_of_mem_toDigits member) (by decide)

namespace Fragment

open Text

/-- The character with a meaning of its own that a fragment begins with, unless it is a character
itself. -/
def mark? : Fragment → Option Char
  | sign s => some s.char
  | char _ => none
  | range .. => some '['
  | token _ => some '"'
  | count _ => some '\x7b'

theorem mem_metacharacters_of_mark? {fragment : Fragment} {c : Char} (marked : fragment.mark? = some c) :
    c ∈ metacharacters ∧ c ≠ '\\' := by
  cases fragment with
  | sign s =>
      cases marked
      cases s <;> decide
  | char _ => cases marked
  | range _ _ | token _ | count _ =>
      cases marked
      decide

/-- A fragment begins with its mark, or with what a character is shown by. -/
theorem text_eq_cons (fragment : Fragment) : ∃ c rest, fragment.text = c :: rest ∧
    (fragment.mark? = some c ∨ fragment.mark? = none ∧ (c = '\\' ∨ c ∉ metacharacters)) := by
  cases fragment with
  | sign _ | range _ _ | count _ => exact ⟨_, _, rfl, .inl rfl⟩
  | token text => exact ⟨_, _, toList_quote text, .inl rfl⟩
  | char c =>
      have shown := toList_escapeAmong metacharacters c
      by_cases isSpecial : c ∈ metacharacters
      · exact ⟨_, _, shown.trans (if_pos isSpecial), .inr ⟨rfl, .inl rfl⟩⟩
      · exact ⟨_, _, shown.trans (if_neg isSpecial), .inr ⟨rfl, .inr isSpecial⟩⟩

/-- Fragments whose texts begin in the same way have the same mark. -/
theorem mark?_eq_of_text {fragment fragment' : Fragment} {rest rest' : List Char}
    (same : fragment.text ++ rest = fragment'.text ++ rest') : fragment.mark? = fragment'.mark? := by
  obtain ⟨c, tail, text_eq, begins⟩ := fragment.text_eq_cons
  obtain ⟨c', tail', text_eq', begins'⟩ := fragment'.text_eq_cons
  rw [text_eq, text_eq'] at same
  obtain ⟨rfl, _⟩ := List.cons.inj same
  rcases begins with marked | ⟨unmarked, plain⟩ <;> rcases begins' with marked' | ⟨unmarked', plain'⟩
  · rw [marked, marked']
  · have special := mem_metacharacters_of_mark? marked
    exact absurd special.1 (plain'.resolve_left special.2)
  · have special := mem_metacharacters_of_mark? marked'
    exact absurd special.1 (plain.resolve_left special.2)
  · rw [unmarked, unmarked']

theorem selfDelimiting_text : SelfDelimiting text := by
  intro fragment fragment' rest rest' same
  have sameMark := mark?_eq_of_text same
  cases fragment <;> cases fragment'
  case sign.sign s s' =>
    obtain ⟨sameChar, sameRest⟩ := List.cons.inj same
    exact ⟨congrArg sign (Sign.char_inj s s' sameChar), sameRest⟩
  case char.char c c' =>
    have backslash : '\\' ∈ metacharacters := by decide
    obtain ⟨rfl, sameRest⟩ := selfDelimiting_escapeAmong backslash same
    exact ⟨rfl, sameRest⟩
  case range.range low high low' high' =>
    have backslash : '\\' ∈ rangeMetacharacters := by decide
    simp only [text, List.cons_append, List.append_assoc, List.cons.injEq, true_and] at same
    obtain ⟨rfl, afterLow⟩ := selfDelimiting_escapeAmong backslash same
    obtain ⟨rfl, afterHigh⟩ := selfDelimiting_escapeAmong backslash (List.cons.inj afterLow).2
    exact ⟨rfl, (List.cons.inj afterHigh).2⟩
  case token.token x x' =>
    obtain ⟨rfl, sameRest⟩ := selfDelimiting_quote same
    exact ⟨rfl, sameRest⟩
  case count.count n n' =>
    simp only [text, List.cons_append, List.append_assoc, List.cons.injEq, true_and] at same
    obtain ⟨sameCount, sameRest⟩ := append_cons_inj_of_notMem n.brace_notMem n'.brace_notMem same
    exact ⟨congrArg count (Count.toString_inj sameCount), sameRest⟩
  all_goals grind [mark?, Sign.char_ne]

/-- Fragments can be told from the text that they make up. -/
theorem flatMap_text_inj {fragments fragments' : List Fragment}
    (same : fragments.flatMap text = fragments'.flatMap text) : fragments = fragments' := by
  induction fragments generalizing fragments' with
  | nil =>
      cases fragments' with
      | nil => rfl
      | cons fragment _ =>
          obtain ⟨c, rest, text_eq, _⟩ := fragment.text_eq_cons
          simp [text_eq] at same
  | cons fragment fragments inductionHypothesis =>
      cases fragments' with
      | nil =>
          obtain ⟨c, rest, text_eq, _⟩ := fragment.text_eq_cons
          simp [text_eq] at same
      | cons fragment' fragments' =>
          obtain ⟨rfl, sameRest⟩ := selfDelimiting_text same
          rw [inductionHypothesis sameRest]

end Fragment

/-! ## Fragments of trees -/

/-- The fragments of an expression, given those of its operands as they stand in it. -/
def Expr.fragments : Expr (List Fragment) → List Fragment
  | alt left right => left ++ .sign .bar :: right
  | any => [.sign .any]
  | cat first second => first ++ second
  | char c => [.char c]
  | empty => [.sign .empty]
  | nil => [.sign .nil]
  | not lang => .sign .complement :: lang
  | opt lang => lang ++ [.sign .option]
  | plus lang => lang ++ [.sign .plus]
  | range low high => [.range low high]
  | rep lang count => lang ++ [.count count]
  | star lang => lang ++ [.sign .star]
  | token text => [.token text]

theorem Expr.toList_render (e : Expr (List Fragment)) :
    (e.map fun fragments => String.ofList (fragments.flatMap Fragment.text)).render.toList =
      e.fragments.flatMap Fragment.text := by
  cases e <;>
    simp [Expr.map, Expr.render, Expr.fragments, Fragment.text, Sign.char]

namespace Tree

variable {tree tree' operand : Tree} {rest : List Fragment} {depth : Nat}

/-- A property of trees that is passed on from the operands holds everywhere. -/
theorem induction_root {motive : Tree → Prop}
    (step : ∀ tree : Tree, (∀ o ∈ tree.root.operands, motive o) → motive tree) (tree : Tree) :
    motive tree := by
  induction height : tree.weight using Nat.strongRecOn generalizing tree with
  | ind _ inductionHypothesis =>
      subst height
      exact step tree fun o member => inductionHypothesis _ (weight_operand member) o rfl

/-- The fragments of an operand, in parentheses unless it is atomic. -/
def enclose (operand : Tree) (fragments : List Fragment) : List Fragment :=
  if operand.root.isAtomic then fragments
  else .sign .opening :: (fragments ++ [.sign .closing])

/-- The fragments of the rendering of a tree. -/
def fragments : Tree → List Fragment :=
  recurse fun e => (e.map fun (operand, fragments) => operand.enclose fragments).fragments

theorem fragments_eq (tree : Tree) :
    tree.fragments = (tree.root.map fun o => o.enclose o.fragments).fragments := by
  rcases tree with link | e
  · rfl
  · cases e <;> rfl

theorem toList_render (tree : Tree) : tree.render.toList = tree.fragments.flatMap Fragment.text := by
  induction tree using induction_root with
  | step tree inductionHypothesis =>
      rw [fragments_eq, ← Expr.toList_render, Expr.map_map, render_eq]
      congr 2
      refine Expr.map_congr fun o member => String.toList_injective ?_
      unfold enclose
      split <;> simp [inductionHypothesis o member, Fragment.text, Sign.char]

/-! ## Reading -/

/-- No reference of the tree is undefined. -/
inductive IsDefined : Tree → Prop where
  | node {e : Expr Tree} : (∀ o ∈ e.operands, IsDefined o) → IsDefined (node e)

/-- Reads an operand. -/
def readOperand (read : List Fragment → Option (Tree × List Fragment)) :
    List Fragment → Option (Tree × List Fragment)
  | .char c :: rest => some (node (.char c), rest)
  | .sign .empty :: rest => some (node .empty, rest)
  | .sign .nil :: rest => some (node .nil, rest)
  | .sign .opening :: rest =>
      match read rest with
      | some (tree, .sign .closing :: rest) => some (tree, rest)
      | _ => none
  | _ => none

/-- Reads what follows the first operand of a tree, or the end of an atomic tree. -/
def readAfter (read : List Fragment → Option (Tree × List Fragment)) (first : Tree) :
    List Fragment → Option (Tree × List Fragment)
  | [] => some (first, [])
  | .sign .closing :: rest => some (first, .sign .closing :: rest)
  | .sign .option :: rest => some (node (.opt first), rest)
  | .sign .plus :: rest => some (node (.plus first), rest)
  | .sign .star :: rest => some (node (.star first), rest)
  | .count n :: rest => some (node (.rep first n), rest)
  | .sign .bar :: rest =>
      (readOperand read rest).map fun (right, rest) => (node (.alt first right), rest)
  | rest => (readOperand read rest).map fun (second, rest) => (node (.cat first second), rest)

/-- Reads a tree of limited depth. -/
def readTree : (depth : Nat) → List Fragment → Option (Tree × List Fragment)
  | 0, _ => none
  | _ + 1, .sign .any :: rest => some (node .any, rest)
  | _ + 1, .range low high :: rest => some (node (.range low high), rest)
  | _ + 1, .token text :: rest => some (node (.token text), rest)
  | depth + 1, .sign .complement :: rest =>
      (readOperand (readTree depth) rest).map fun (lang, rest) => (node (.not lang), rest)
  | depth + 1, fragments =>
      (readOperand (readTree depth) fragments).bind fun (first, rest) =>
        readAfter (readTree depth) first rest

/-- A tree ends where the text ends or a parenthesis is closed. -/
def Ends (rest : List Fragment) : Prop :=
  rest = [] ∨ ∃ after, rest = .sign .closing :: after

/-- The operand is read back, in whatever it stands. -/
def ReadsBack (read : List Fragment → Option (Tree × List Fragment)) (tree : Tree) : Prop :=
  ∀ {rest}, Ends rest → read (tree.fragments ++ rest) = some (tree, rest)

/-- The four ways in which operands are written. -/
theorem IsDefined.enclose_cases (defined : operand.IsDefined) :
    (∃ c, operand = Tree.node (.char c) ∧ operand.enclose operand.fragments = [.char c]) ∨
    (operand = Tree.node .empty ∧ operand.enclose operand.fragments = [.sign .empty]) ∨
    (operand = Tree.node .nil ∧ operand.enclose operand.fragments = [.sign .nil]) ∨
    operand.enclose operand.fragments =
      .sign .opening :: (operand.fragments ++ [.sign .closing]) := by
  cases defined with
  | @node e _ =>
      cases e with
      | char c => exact .inl ⟨c, rfl, rfl⟩
      | empty => exact .inr (.inl ⟨rfl, rfl⟩)
      | nil => exact .inr (.inr (.inl ⟨rfl, rfl⟩))
      | _ => exact .inr (.inr (.inr rfl))

section Operands

variable {read : List Fragment → Option (Tree × List Fragment)} (defined : operand.IsDefined)

include defined

theorem readOperand_enclose (readsBack : ReadsBack read operand) (rest : List Fragment) :
    readOperand read (operand.enclose operand.fragments ++ rest) = some (operand, rest) := by
  rcases defined.enclose_cases with ⟨c, rfl, written⟩ | ⟨rfl, written⟩ | ⟨rfl, written⟩ | written
  · rw [written]; rfl
  · rw [written]; rfl
  · rw [written]; rfl
  · rw [written, List.cons_append, List.append_assoc]
    simp only [readOperand, readsBack (.inr ⟨rest, rfl⟩), List.singleton_append]

/-- What begins with an operand is no complement, and none of the trees without operands but the
operand itself. -/
theorem readTree_enclose (readsBack : ReadsBack (readTree depth) operand) (rest : List Fragment) :
    readTree (depth + 1) (operand.enclose operand.fragments ++ rest) =
      readAfter (readTree depth) operand rest := by
  have isRead := readOperand_enclose defined readsBack rest
  rcases defined.enclose_cases with ⟨c, rfl, written⟩ | ⟨rfl, written⟩ | ⟨rfl, written⟩ | written
  all_goals
    rw [written] at isRead ⊢
    simp only [List.cons_append] at isRead ⊢
    rw [readTree, isRead]
    · rfl
    all_goals simp

theorem readAfter_enclose (readsBack : ReadsBack read operand) (first : Tree) (rest : List Fragment) :
    readAfter read first (operand.enclose operand.fragments ++ rest) =
      some (node (.cat first operand), rest) := by
  have isRead := readOperand_enclose defined readsBack rest
  rcases defined.enclose_cases with ⟨c, rfl, written⟩ | ⟨rfl, written⟩ | ⟨rfl, written⟩ | written
  all_goals
    rw [written] at isRead ⊢
    simp only [List.cons_append] at isRead ⊢
    rw [readAfter, isRead]
    · rfl
    all_goals simp

end Operands

theorem readAfter_of_ends {read : List Fragment → Option (Tree × List Fragment)} (ends : Ends rest)
    (first : Tree) : readAfter read first rest = some (first, rest) := by
  rcases ends with rfl | ⟨after, rfl⟩ <;> rfl

/-- Every tree is read back from its fragments. -/
theorem IsDefined.readsBack (defined : tree.IsDefined) (deep : tree.weight < depth) :
    ReadsBack (readTree depth) tree := by
  induction defined generalizing depth with
  | @node e defined inductionHypothesis =>
      obtain ⟨depth, rfl⟩ := Nat.exists_eq_succ_of_ne_zero (Nat.ne_of_gt (Nat.zero_lt_of_lt deep))
      have lighter : ∀ o ∈ e.operands, o.weight < (Tree.node e).weight :=
        fun _ member => weight_operand member
      have below : ∀ o ∈ e.operands, ReadsBack (readTree depth) o := fun o member =>
        inductionHypothesis o member ((lighter o member).trans_le (Nat.le_of_lt_succ deep))
      intro rest ends
      rw [fragments_eq]
      cases e with
      | any | range _ _ | token _ => rfl
      | char _ | empty | nil => exact readAfter_of_ends ends _
      | not lang =>
          have member : lang ∈ (Expr.not lang).operands := List.mem_singleton_self lang
          have isRead := readOperand_enclose (defined lang member) (below lang member) rest
          exact congrArg (Option.map _) isRead
      | opt lang | plus lang | star lang | rep lang count =>
          have lang_mem := List.mem_singleton_self lang
          simp only [root, Expr.map, Expr.fragments, List.append_assoc]
          rw [readTree_enclose (defined lang lang_mem) (below lang lang_mem)]
          rfl
      | alt left right =>
          have left_mem : left ∈ [left, right] := by simp
          have right_mem : right ∈ [left, right] := by simp
          simp only [root, Expr.map, Expr.fragments, List.append_assoc, List.cons_append]
          rw [readTree_enclose (defined left left_mem) (below left left_mem), readAfter,
            readOperand_enclose (defined right right_mem) (below right right_mem)]
          rfl
      | cat first second =>
          have first_mem : first ∈ [first, second] := by simp
          have second_mem : second ∈ [first, second] := by simp
          simp only [root, Expr.map, Expr.fragments, List.append_assoc]
          rw [readTree_enclose (defined first first_mem) (below first first_mem),
            readAfter_enclose (defined second second_mem) (below second second_mem)]

/-- Trees without undefined references are determined by their renderings. -/
theorem IsDefined.render_inj (defined : tree.IsDefined) (defined' : tree'.IsDefined)
    (same : tree.render = tree'.render) : tree = tree' := by
  have sameFragments : tree.fragments = tree'.fragments := by
    refine Fragment.flatMap_text_inj ?_
    rw [← toList_render, ← toList_render, same]
  have isRead := defined.readsBack (Nat.lt_succ_of_le (Nat.le_add_right tree.weight tree'.weight))
    (.inl rfl)
  have isRead' := defined'.readsBack
    (Nat.lt_succ_of_le (Nat.le_add_left tree'.weight tree.weight)) (.inl rfl)
  rw [sameFragments, isRead'] at isRead
  exact (Prod.ext_iff.mp (Option.some.inj isRead)).1.symm

end Tree

end Residual
