import Mathlib
import Residual.Pratt.Parser
import Residual.Proofs.Pratt.Lexemes
import Residual.Proofs.Pratt.Precedence

/-!
# Operator precedence parsing is exact

A parser whose symbols implement an operator table finds a tree for its input exactly if there is
one that respects the table, and then there is no other one.

`Ensures` of `expression` and `extend` gives soundness: what was parsed respects the table, and
nothing at its right edge could have taken the next lexeme.  Completeness follows the tree: an
expression that begins with the lexemes of the tree goes on as `extend` of that tree.
-/

set_option autoImplicit false

namespace Residual.Pratt

open Parse

variable {Kind : Type} [BEq Kind] [Hashable Kind]

/-- The symbols do what the table says. -/
structure Symbols.Implement (symbols : Symbols Kind (Tree Kind)) (table : OperatorTable Kind) :
    Prop where
  start? : ∀ kind, (symbols[kind]?).bind Symbol.start? = (table.start? kind).map StartRole.script
  follow? : ∀ kind,
    (symbols[kind]?).bind Symbol.follow? = (table.follow? kind).map FollowRole.script
  power : ∀ kind, symbols.power kind = table.power kind

/-- The symbol of a kind that does what the table says. -/
def OperatorTable.symbol [ToString Kind] (table : OperatorTable Kind) (kind : Kind) :
    Symbol Kind (Tree Kind) where
  name := toString kind
  power := table.power kind
  start? := (table.start? kind).map StartRole.script
  follow? := (table.follow? kind).map FollowRole.script

/-- Kinds that end every expression and have no role need no symbol. -/
theorem Symbols.implement_of_symbol [ToString Kind] {symbols : Symbols Kind (Tree Kind)}
    {table : OperatorTable Kind} (each : ∀ kind, symbols[kind]? = some (table.symbol kind) ∨
      (symbols[kind]? = none ∧ table.start? kind = none ∧ table.follow? kind = none ∧
        table.power kind = 0)) : symbols.Implement table where
  start? kind := by
    rcases each kind with found | ⟨found, start, _, _⟩
    · simp [found, OperatorTable.symbol]
    · simp [found, start]
  follow? kind := by
    rcases each kind with found | ⟨found, _, follow, _⟩
    · simp [found, OperatorTable.symbol]
    · simp [found, follow]
  power kind := by
    rcases each kind with found | ⟨found, _, _, power⟩
    · simp [Symbols.power, found, OperatorTable.symbol]
    · simp [Symbols.power, found, power]

/-- The tree is right for the lexemes between two places, and the operators at its left edge bind
tighter than `power`. -/
structure OperatorTable.Parsed (table : OperatorTable Kind) (power : Nat)
    (before : List (Lexeme Kind)) (tree : Tree Kind) (rest : List (Lexeme Kind)) : Prop where
  respects : table.Respects tree
  lexemes : before = tree.lexemes ++ rest
  tighter : ∀ operator ∈ tree.leftEdge, power < table.power operator.kind
  closed : table.Closed tree rest

namespace Parse

open OperatorTable

variable [ToString Kind] {symbols : Symbols Kind (Tree Kind)} {table : OperatorTable Kind}
  {limit power : Nat} {lexeme : Lexeme Kind} {tree left : Tree Kind} {rest : List (Lexeme Kind)}
  {journal : Journal}

theorem extend_of_stops (implement : symbols.Implement table) (stops : table.Stops power rest) :
    extend symbols limit power left ⟨rest, journal⟩ = .ok left ⟨rest, journal⟩ := by
  cases limit with
  | zero => rfl
  | succ limit =>
      rw [extend]
      cases rest with
      | nil => rfl
      | cons lexeme rest =>
          have stops : symbols.power lexeme.kind ≤ power := by
            rw [implement.power]
            exact stops_cons.mp stops
          apply (bind_of_ok (get_eq _)).trans
          simp only [stops, if_true]
          rfl

/-! ## What was parsed is right -/

section Soundness

theorem ensures_expect [LawfulBEq Kind] {kind : Kind} :
    Ensures (expect symbols kind) ⟨rest, journal⟩ fun found after =>
      found.kind = kind ∧ rest = found :: after.rest := by
  rw [expect, ensures_bind, advance, ensures_modifyGet]
  cases rest with
  | nil => exact ensures_throw _ _
  | cons lexeme rest =>
      by_cases same : lexeme.kind = kind
      · simp [same]
      · simp [same]

/-- Nested expressions are parsed rightly, if there are no more lexemes than `limit`. -/
def Sound (symbols : Symbols Kind (Tree Kind)) (table : OperatorTable Kind) (limit : Nat) : Prop :=
  ∀ (power : Nat) {rest : List (Lexeme Kind)} {journal : Journal}, rest.length ≤ limit →
    Ensures (expression symbols limit power) ⟨rest, journal⟩ fun tree after =>
      table.Parsed power rest tree after.rest ∧ table.Stops power after.rest

/-- A lexeme with a role at the start of an expression. -/
theorem ensures_start [LawfulBEq Kind] (sound : Sound symbols table limit) (power : Nat)
    {role : StartRole Kind} (found : table.start? lexeme.kind = some role)
    (fits : rest.length ≤ limit) :
    Ensures (run symbols (expression symbols limit) (role.script lexeme)) ⟨rest, journal⟩
      fun tree after => table.Parsed power (lexeme :: rest) tree after.rest ∧
        after.rest.length ≤ rest.length := by
  rcases table.start_cases found with rfl | ⟨right, rfl⟩ | ⟨close, rfl⟩
  · apply (ensures_pure _ _).mpr
    refine ⟨⟨.atom found, rfl, ?_, ?_⟩, Nat.le_refl _⟩
    · simp [Tree.leftEdge]
    · simp [Closed, rightEdge]
  · apply (ensures_bind _ _ _).mpr
    apply (sound right fits).mono
    rintro operand after ⟨parsed, stops⟩
    apply (ensures_pure _ _).mpr
    refine ⟨⟨.before found parsed.respects parsed.tighter, ?_, by simp [Tree.leftEdge], ?_⟩, ?_⟩
    · simpa [Tree.lexemes] using parsed.lexemes
    · intro power member
      rcases List.mem_cons.mp member with same | member
      · simpa [same, beforePower, found] using stops
      · exact parsed.closed power member
    · simp [parsed.lexemes]
  · apply (ensures_bind _ _ _).mpr
    apply (sound 0 fits).mono
    rintro inner between ⟨parsed, _⟩
    apply (ensures_bind _ _ _).mpr
    apply ensures_expect.mono
    rintro closing after ⟨rfl, isNext⟩
    apply (ensures_pure _ _).mpr
    have lexemes : rest = inner.lexemes ++ closing :: after.rest := by
      rw [parsed.lexemes, isNext]
    refine ⟨⟨.group found parsed.respects, ?_, by simp [Tree.leftEdge], ?_⟩, ?_⟩
    · simpa [Tree.lexemes] using lexemes
    · simp [Closed, rightEdge]
    · simp [lexemes]
      omega

/-- A lexeme with a role after an expression. -/
theorem ensures_follow (sound : Sound symbols table limit) {role : FollowRole Kind}
    (found : table.follow? lexeme.kind = some role) (fits : rest.length ≤ limit)
    {before : List (Lexeme Kind)} (parsed : table.Parsed power before left (lexeme :: rest))
    (tighter : power < table.power lexeme.kind) :
    Ensures (run symbols (expression symbols limit) (role.script lexeme left)) ⟨rest, journal⟩
      fun tree after => table.Parsed power before tree after.rest ∧
        after.rest.length ≤ rest.length := by
  have atLeft : ∀ operator ∈ lexeme :: left.leftEdge, power < table.power operator.kind := by
    simpa [tighter] using parsed.tighter
  have atRight := closed_cons.mp parsed.closed
  rcases table.follow_cases found with rfl | ⟨right, rfl⟩
  · apply (ensures_pure _ _).mpr
    refine ⟨⟨.after found parsed.respects atRight, ?_, atLeft, ?_⟩, Nat.le_refl _⟩
    · simpa [Tree.lexemes] using parsed.lexemes
    · simp [Closed, rightEdge]
  · apply (ensures_bind _ _ _).mpr
    apply (sound right fits).mono
    rintro operand after ⟨parsedRight, stops⟩
    apply (ensures_pure _ _).mpr
    refine ⟨⟨.binary found parsed.respects parsedRight.respects parsedRight.tighter atRight, ?_,
      atLeft, ?_⟩, ?_⟩
    · simpa [Tree.lexemes, ← parsedRight.lexemes] using parsed.lexemes
    · intro power member
      rcases List.mem_cons.mp member with same | member
      · simpa [same, rightPower, found] using stops
      · exact parsedRight.closed power member
    · simp [parsedRight.lexemes]

variable (implement : symbols.Implement table)

include implement

theorem ensures_extend {limit : Nat} (sound : ∀ fewer < limit, Sound symbols table fewer)
    {before : List (Lexeme Kind)} (fits : rest.length ≤ limit)
    (parsed : table.Parsed power before left rest) :
    Ensures (extend symbols limit power left) ⟨rest, journal⟩ fun tree after =>
      table.Parsed power before tree after.rest ∧ table.Stops power after.rest := by
  induction limit generalizing left rest journal with
  | zero =>
      have isEnd : rest = [] := List.length_eq_zero_iff.mp (Nat.le_zero.mp fits)
      apply (ensures_pure _ _).mpr
      exact ⟨parsed, by simp [isEnd]⟩
  | succ limit inductionHypothesis =>
      by_cases stops : table.Stops power rest
      · have isDone : Ensures (pure left : Parse Kind (Tree Kind)) ⟨rest, journal⟩ fun tree after =>
            table.Parsed power before tree after.rest ∧ table.Stops power after.rest :=
          (ensures_pure _ _).mpr ⟨parsed, stops⟩
        exact isDone.of_eq (extend_of_stops implement stops)
      · cases rest with
        | nil => exact absurd stops_nil stops
        | cons lexeme rest =>
            have tighter : power < table.power lexeme.kind := by simpa using stops
            have fits : rest.length ≤ limit := by simpa using fits
            have tighter' : power < symbols.power lexeme.kind := by rwa [implement.power]
            have isSymbol := implement.follow? lexeme.kind
            cases found : table.follow? lexeme.kind with
            | none =>
                rw [found] at isSymbol
                exact (ensures_throw _ _).of_eq (extend_cons_eq_error tighter' isSymbol)
            | some role =>
                rw [found] at isSymbol
                apply Ensures.of_eq _ (extend_cons tighter' isSymbol)
                apply (ensures_bind _ _ _).mpr
                have nested := sound limit (Nat.lt_succ_self limit)
                apply (ensures_follow nested found fits parsed tighter).mono
                intro tree after ⟨parsed, shorter⟩
                apply inductionHypothesis _ (Nat.le_trans shorter fits) parsed
                intro fewer isFewer
                exact sound fewer (Nat.lt_succ_of_lt isFewer)

theorem sound [LawfulBEq Kind] (limit : Nat) : Sound symbols table limit := by
  induction limit using Nat.strongRecOn with
  | _ limit inductionHypothesis =>
      intro power rest journal fits
      cases limit with
      | zero => exact ensures_throw _ _
      | succ limit =>
          cases rest with
          | nil => exact (ensures_throw _ _).of_eq expression_nil
          | cons lexeme rest =>
              have fits : rest.length ≤ limit := by simpa using fits
              have isSymbol := implement.start? lexeme.kind
              cases found : table.start? lexeme.kind with
              | none =>
                  rw [found] at isSymbol
                  exact (ensures_throw _ _).of_eq (expression_cons_eq_error isSymbol)
              | some role =>
                  rw [found] at isSymbol
                  apply Ensures.of_eq _ (expression_cons isSymbol)
                  apply (ensures_bind _ _ _).mpr
                  have nested := inductionHypothesis limit (Nat.lt_succ_self limit)
                  apply (ensures_start nested power found fits).mono
                  intro tree after ⟨parsed, shorter⟩
                  apply ensures_extend implement _ (Nat.le_trans shorter fits) parsed
                  intro fewer isFewer
                  exact inductionHypothesis fewer (Nat.lt_succ_of_lt isFewer)

end Soundness

/-! ## What is right is parsed -/

section Completeness

variable (symbols table) in
/-- An expression that begins with the lexemes of the tree goes on as the tree is extended. -/
def Begins (tree : Tree Kind) : Prop :=
  ∀ {power limit : Nat} {rest : List (Lexeme Kind)} (journal : Journal),
    (∀ operator ∈ tree.leftEdge, power < table.power operator.kind) → table.Closed tree rest →
    tree.lexemes.length + rest.length ≤ limit →
    ∃ limit' journal', rest.length ≤ limit' ∧
      expression symbols limit power ⟨tree.lexemes ++ rest, journal⟩ =
        extend symbols limit' power tree ⟨rest, journal'⟩

variable (implement : symbols.Implement table)

include implement

/-- What a lexeme starts is extended. -/
theorem expression_of_start {between : List (Lexeme Kind)} {role : StartRole Kind}
    (found : table.start? lexeme.kind = some role)
    (answered : ∀ journal, ∃ journal', run symbols (expression symbols limit) (role.script lexeme)
      ⟨between, journal⟩ = .ok tree ⟨rest, journal'⟩) :
    ∃ journal', expression symbols (limit + 1) power ⟨lexeme :: between, journal⟩ =
      extend symbols limit power tree ⟨rest, journal'⟩ := by
  have isSymbol := implement.start? lexeme.kind
  rw [found] at isSymbol
  obtain ⟨journal', answered⟩ := answered _
  exact ⟨journal', (expression_cons isSymbol).trans (bind_of_ok answered)⟩

/-- What a lexeme makes of the expression before it is extended. -/
theorem extend_of_follow {between : List (Lexeme Kind)} {role : FollowRole Kind}
    (found : table.follow? lexeme.kind = some role) (tighter : power < table.power lexeme.kind)
    (answered : ∀ journal, ∃ journal', run symbols (expression symbols limit)
      (role.script lexeme left) ⟨between, journal⟩ = .ok tree ⟨rest, journal'⟩) :
    ∃ journal', extend symbols (limit + 1) power left ⟨lexeme :: between, journal⟩ =
      extend symbols limit power tree ⟨rest, journal'⟩ := by
  have tighter' : power < symbols.power lexeme.kind := by rwa [implement.power]
  have isSymbol := implement.follow? lexeme.kind
  rw [found] at isSymbol
  obtain ⟨journal', answered⟩ := answered _
  exact ⟨journal', (extend_cons tighter' isSymbol).trans (bind_of_ok answered)⟩

/-- An operand is parsed if what follows it belongs to something else. -/
theorem Begins.parsed (begins : Begins symbols table tree)
    (tighter : ∀ operator ∈ tree.leftEdge, power < table.power operator.kind)
    (closed : table.Closed tree rest) (stops : table.Stops power rest)
    (fits : tree.lexemes.length + rest.length ≤ limit) (journal : Journal) :
    ∃ journal', expression symbols limit power ⟨tree.lexemes ++ rest, journal⟩ =
      .ok tree ⟨rest, journal'⟩ := by
  obtain ⟨limit', journal', _, goesOn⟩ := begins journal tighter closed fits
  refine ⟨journal', ?_⟩
  rw [goesOn]
  exact extend_of_stops implement stops

theorem begins [LawfulBEq Kind] (respects : table.Respects tree) :
    Begins symbols table tree := by
  induction respects with
  | @atom lexeme role =>
      intro power limit rest journal _ _ fits
      have fits : rest.length + 1 ≤ limit := by
        simp only [Tree.lexemes, List.length_singleton] at fits
        omega
      obtain ⟨limit, rfl⟩ := Nat.exists_eq_add_of_le' (Nat.le_trans (Nat.le_add_left 1 _) fits)
      obtain ⟨journal', goesOn⟩ := expression_of_start implement role fun journal => ⟨journal, rfl⟩
      exact ⟨limit, journal', Nat.le_of_succ_le_succ fits, goesOn⟩
  | @before operator operand right role _ tighter inductionHypothesis =>
      intro power limit rest journal _ closed fits
      have fits : operand.lexemes.length + rest.length + 1 ≤ limit := by
        simp only [Tree.lexemes, List.length_cons] at fits
        omega
      obtain ⟨limit, rfl⟩ := Nat.exists_eq_add_of_le' (Nat.le_trans (Nat.le_add_left 1 _) fits)
      have fits := Nat.le_of_succ_le_succ fits
      have closed : table.Stops right rest ∧ table.Closed operand rest := by
        simpa [Closed, rightEdge, beforePower, role] using closed
      obtain ⟨journal', goesOn⟩ := expression_of_start implement role fun journal => by
        obtain ⟨journal', parsed⟩ :=
          inductionHypothesis.parsed implement tighter closed.2 closed.1 fits journal
        exact ⟨journal', bind_of_ok parsed⟩
      exact ⟨limit, journal', Nat.le_trans (Nat.le_add_left _ _) fits, goesOn⟩
  | @group opening closing inner role respects inductionHypothesis =>
      intro power limit rest journal _ _ fits
      have fits : inner.lexemes.length + (closing :: rest).length + 1 ≤ limit := by
        simp only [Tree.lexemes, List.length_append, List.length_cons, List.length_nil] at fits ⊢
        omega
      obtain ⟨limit, rfl⟩ := Nat.exists_eq_add_of_le' (Nat.le_trans (Nat.le_add_left 1 _) fits)
      have fits := Nat.le_of_succ_le_succ fits
      have closes : ∀ power, table.Stops power (closing :: rest) := by
        simp [table.power_close role]
      obtain ⟨journal', goesOn⟩ := expression_of_start implement role fun journal => by
        obtain ⟨journal', parsed⟩ := inductionHypothesis.parsed implement respects.power_pos
          (fun power _ => closes power) (closes 0) fits journal
        exact ⟨journal', (bind_of_ok parsed).trans (bind_of_ok expect_cons)⟩
      refine ⟨limit, journal', ?_, ?_⟩
      · simp only [List.length_cons] at fits
        omega
      · simpa [Tree.lexemes] using goesOn
  | @binary operator left right rightPower role _ _ tighter atRight inLeft inRight =>
      intro power limit rest journal atLeft closed fits
      have atLeft : power < table.power operator.kind ∧
          ∀ inner ∈ left.leftEdge, power < table.power inner.kind := by
        simpa [Tree.leftEdge] using atLeft
      have closed : table.Stops rightPower rest ∧ table.Closed right rest := by
        simpa [Closed, rightEdge, OperatorTable.rightPower, role] using closed
      have fits : left.lexemes.length + (operator :: (right.lexemes ++ rest)).length ≤ limit := by
        simp only [Tree.lexemes, List.length_append, List.length_cons] at fits ⊢
        omega
      -- The left operand is extended by the operator, and that by what follows.
      obtain ⟨limit, journal, fits, goesOn⟩ := inLeft journal atLeft.2
        (closed_cons.mpr atRight) fits
      obtain ⟨limit, rfl⟩ := Nat.exists_eq_add_of_le' (Nat.le_trans (Nat.le_add_left 1 _) fits)
      have fits : right.lexemes.length + rest.length ≤ limit := by simpa using fits
      obtain ⟨journal', goesOn'⟩ := extend_of_follow implement role atLeft.1 fun journal => by
        obtain ⟨journal', parsed⟩ :=
          inRight.parsed implement tighter closed.2 closed.1 fits journal
        exact ⟨journal', bind_of_ok parsed⟩
      refine ⟨limit, journal', Nat.le_trans (Nat.le_add_left _ _) fits, ?_⟩
      simpa [Tree.lexemes] using goesOn.trans goesOn'
  | @after operator operand role _ atRight inductionHypothesis =>
      intro power limit rest journal atLeft closed fits
      have atLeft : power < table.power operator.kind ∧
          ∀ inner ∈ operand.leftEdge, power < table.power inner.kind := by
        simpa [Tree.leftEdge] using atLeft
      have fits : operand.lexemes.length + (operator :: rest).length ≤ limit := by
        simp only [Tree.lexemes, List.length_append, List.length_cons, List.length_nil] at fits ⊢
        omega
      obtain ⟨limit, journal, fits, goesOn⟩ := inductionHypothesis journal atLeft.2
        (closed_cons.mpr atRight) fits
      obtain ⟨limit, rfl⟩ := Nat.exists_eq_add_of_le' (Nat.le_trans (Nat.le_add_left 1 _) fits)
      obtain ⟨journal', goesOn'⟩ :=
        extend_of_follow implement role atLeft.1 fun journal => ⟨journal, rfl⟩
      refine ⟨limit, journal', by simpa using fits, ?_⟩
      simpa [Tree.lexemes] using goesOn.trans goesOn'

end Completeness

variable (implement : symbols.Implement table)

include implement

theorem whole_eq_ok_iff [LawfulBEq Kind] :
    (∃ input, whole symbols ⟨rest, journal⟩ = .ok tree input) ↔
      table.Respects tree ∧ tree.lexemes = rest := by
  constructor
  · intro ⟨input, answered⟩
    have ensures : Ensures (whole symbols) ⟨rest, journal⟩ fun tree after =>
        table.Respects tree ∧ tree.lexemes = rest := by
      rw [whole, ensures_bind, ensures_get, ensures_bind]
      apply (sound implement _ 0 (Nat.le_refl _)).mono
      intro tree after ⟨parsed, _⟩
      apply (ensures_bind _ _ _).mpr
      apply (ensures_get _).mpr
      have lexemes := parsed.lexemes
      cases isRest : after.rest with
      | nil =>
          apply (ensures_pure _ _).mpr
          simpa [isRest, eq_comm] using And.intro parsed.respects lexemes
      | cons lexeme rest => exact ensures_throw _ _
    exact ensures.of_ok answered
  · rintro ⟨respects, rfl⟩
    have closed : table.Closed tree [] := fun _ _ => stops_nil
    have goesOn : Begins symbols table tree := begins implement respects
    obtain ⟨journal', parsed⟩ := goesOn.parsed implement respects.power_pos closed stops_nil
      (Nat.le_refl _) journal
    rw [List.append_nil] at parsed
    refine ⟨⟨[], journal'⟩, ?_⟩
    rw [whole]
    exact (bind_of_ok (get_eq _)).trans ((bind_of_ok parsed).trans (bind_of_ok (get_eq _)))

end Parse

namespace Parser

variable [ToString Kind] {parser : Parser Kind (Tree Kind)} {table : OperatorTable Kind}

theorem parse_eq_ok_iff_exists {tree : Tree Kind} :
    (parse parser).1 = .ok tree ↔ ∃ input, whole parser.symbols parser.input = .ok tree input := by
  rw [parse_fst]
  cases whole parser.symbols parser.input with
  | ok answer input => simp
  | error error input => simp

/-- A parser finds a tree exactly if it respects the operator table and is written as the lexemes
that are left, and there is at most one such tree. -/
theorem parse_eq_ok_iff_respects [LawfulBEq Kind] (implement : parser.symbols.Implement table) :
    (∀ tree, (parse parser).1 = .ok tree ↔
      table.Respects tree ∧ tree.lexemes = parser.input.rest) ∧
      ∀ tree tree', table.Respects tree → table.Respects tree' →
        tree.lexemes = parser.input.rest → tree'.lexemes = parser.input.rest → tree = tree' := by
  have exact_iff : ∀ tree, (parse parser).1 = .ok tree ↔
      table.Respects tree ∧ tree.lexemes = parser.input.rest := by
    intro tree
    rw [parse_eq_ok_iff_exists]
    exact whole_eq_ok_iff implement
  refine ⟨exact_iff, ?_⟩
  intro tree tree' respects respects' lexemes lexemes'
  have parsed := (exact_iff tree).mpr ⟨respects, lexemes⟩
  have parsed' := (exact_iff tree').mpr ⟨respects', lexemes'⟩
  rw [parsed] at parsed'
  exact Except.ok.inj parsed'

end Parser

/-! ## A small calculator -/

/-- Numbers `n`, groups, a sign that binds tighter than subtraction, and factorials. -/
def calculator : OperatorTable Char where
  start?
    | 'n' => some .atom
    | '-' => some (.operator 9)
    | '(' => some (.group ')')
    | _ => none
  follow?
    | '-' => some (.binary 5)
    | '!' => some .postfixed
    | _ => none
  power
    | '-' => 5
    | '!' => 11
    | _ => 0
  start_cases {kind role} found := by
    split at found <;> simp_all [eq_comm]
  follow_cases {kind role} found := by
    split at found <;> simp_all [eq_comm]
  power_pos {kind role} found := by
    split at found <;> simp_all
  power_close {kind close} found := by
    split at found <;> simp_all [eq_comm]

/-- The calculator before `-n-(n)!`. -/
def calculation : Parser Char (Tree Char) where
  symbols := ['n', '(', '-', '!'].foldr
    (fun kind symbols => symbols.insert kind (calculator.symbol kind)) ∅
  input := { rest := ['-', 'n', '-', '(', 'n', ')', '!'].map fun c => ⟨⟨c, {}⟩, c.toString⟩ }

theorem calculation_implements : calculation.symbols.Implement calculator := by
  apply Symbols.implement_of_symbol
  intro kind
  simp only [calculation, List.foldr_cons, List.foldr_nil, Std.HashMap.getElem?_insert,
    Std.HashMap.getElem?_empty, beq_iff_eq]
  split_ifs with isAtom isGroup isSign isFactorial
  · exact .inl (by rw [isAtom])
  · exact .inl (by rw [isGroup])
  · exact .inl (by rw [isSign])
  · exact .inl (by rw [isFactorial])
  · refine .inr ⟨rfl, ?_, ?_, ?_⟩ <;> simp only [calculator] <;> split <;> simp_all

/-- The sign takes the first number, and the factorial takes the group. -/
theorem parse_calculation : calculation.symbols.Implement calculator ∧
    (Parser.parse calculation).1 = .ok
      (.binary ⟨⟨'-', {}⟩, "-"⟩
        (.before ⟨⟨'-', {}⟩, "-"⟩ (.atom ⟨⟨'n', {}⟩, "n"⟩))
        (.after ⟨⟨'!', {}⟩, "!"⟩
          (.group ⟨⟨'(', {}⟩, "("⟩ ⟨⟨')', {}⟩, ")"⟩ (.atom ⟨⟨'n', {}⟩, "n"⟩)))) := by
  refine ⟨calculation_implements, ?_⟩
  apply ((Parser.parse_eq_ok_iff_respects calculation_implements).1 _).mpr
  refine ⟨.binary rfl (.before rfl (.atom rfl) ?_) (.after rfl (.group rfl (.atom rfl)) ?_) ?_ ?_,
    ?_⟩
  all_goals decide

end Residual.Pratt
