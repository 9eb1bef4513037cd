import Residual.Toml.Value

/-!
# TOML scalars

Numbers, truth values, dates and times.  Each is one word of letters, digits and the marks
`+ - _ . :`, which has to be of the form of its kind from end to end; only a date and a time may
stand in two words.
-/

set_option autoImplicit false

namespace Residual.Toml

/-- A character of a word. -/
def isWordChar (c : Char) : Bool :=
  c.isAlphanum || c ∈ ['+', '-', '_', '.', ':']

/-- The value of a digit in any base up to sixteen. -/
def digitValue (c : Char) : Nat :=
  if c.isDigit then c.toNat - '0'.toNat
  else if c.toNat < 'a'.toNat then c.toNat - 'A'.toNat + 10
  else c.toNat - 'a'.toNat + 10

def isDigitOf (base : Nat) (c : Char) : Bool :=
  (c.isDigit || ('a' ≤ c && c ≤ 'f') || ('A' ≤ c && c ≤ 'F')) && digitValue c < base

/-- The number that digits denote. -/
def ofDigits (base : Nat) (digits : List Char) : Nat :=
  digits.foldl (fun value c => value * base + digitValue c) 0

/-- Digits without the underscores that may stand between two of them. -/
def ungroup? (base : Nat) : List Char → Option (List Char)
  | [] => none
  | [c] => if isDigitOf base c then some [c] else none
  | c :: '_' :: rest => if isDigitOf base c then (ungroup? base rest).map (c :: ·) else none
  | c :: rest => if isDigitOf base c then (ungroup? base rest).map (c :: ·) else none

/-- The digits of a decimal number, whose first digit is zero only if it is the only one. -/
def decimal? (word : List Char) : Option (List Char) :=
  match ungroup? 10 word with
  | some ('0' :: _ :: _) => none
  | digits? => digits?

/-- Whether a word has a minus sign, and the word without its sign. -/
def splitSign : List Char → Bool × List Char
  | '+' :: rest => (false, rest)
  | '-' :: rest => (true, rest)
  | word => (false, word)

/-- An integer beyond 64 bits is refused. -/
def bounded? (value : Int) : Option Int :=
  if -9223372036854775808 ≤ value ∧ value ≤ 9223372036854775807 then some value else none

/-- An integer.  Only decimal ones may have a sign. -/
def integer? (word : List Char) : Option Int :=
  let magnitude? (base : Nat) (digits : List Char) : Option Int := do
    bounded? (ofDigits base (← ungroup? base digits))
  match word with
  | '0' :: 'x' :: digits => magnitude? 16 digits
  | '0' :: 'o' :: digits => magnitude? 8 digits
  | '0' :: 'b' :: digits => magnitude? 2 digits
  | _ => do
      let (negative, digits) := splitSign word
      let magnitude : Int := ofDigits 10 (← decimal? digits)
      bounded? (if negative then -magnitude else magnitude)

/-- The least number whose nearest double is infinity: it lies halfway between the greatest finite
double and the next power of two. -/
def overflowBound : Nat :=
  Nat.pow 2 1024 - Nat.pow 2 970

/-- `mantissa · 10 ^ exponent` is so large that the nearest double is infinity. -/
def overflows (mantissa : Nat) (exponent : Int) : Bool :=
  let digits : Int := (Nat.toDigits 10 mantissa).length
  if mantissa = 0 then false
  else if digits + exponent > 310 then true
  else if digits + exponent < 300 then false
  else if 0 ≤ exponent then overflowBound ≤ mantissa * Nat.pow 10 exponent.toNat
  else overflowBound * Nat.pow 10 (-exponent).toNat ≤ mantissa

/-- The digits before and after the point, and the exponent, of a float without its sign. -/
def floatParts? (word : List Char) : Option (List Char × List Char × Int) := do
  let isMark (c : Char) : Bool := c ∈ ['.', 'e', 'E']
  let whole ← decimal? (word.takeWhile (!isMark ·))
  let rest := word.dropWhile (!isMark ·)
  let (fraction, rest) ←
    match rest with
    | '.' :: rest => do
        let isExponentMark (c : Char) : Bool := c ∈ ['e', 'E']
        pure (← ungroup? 10 (rest.takeWhile (!isExponentMark ·)),
          rest.dropWhile (!isExponentMark ·))
    | _ => pure ([], rest)
  match rest with
  | [] => if fraction.isEmpty then none else return (whole, fraction, 0)
  | _ :: exponent =>
      let (negative, digits) := splitSign exponent
      let magnitude : Int := ofDigits 10 (← ungroup? 10 digits)
      return (whole, fraction, if negative then -magnitude else magnitude)

/-- A float.  Positive ones beyond the range of doubles are refused. -/
def isFloat (word : List Char) : Bool :=
  let (negative, magnitude) := splitSign word
  magnitude = ['i', 'n', 'f'] || magnitude = ['n', 'a', 'n'] ||
    match floatParts? magnitude with
    | some (whole, fraction, exponent) =>
        negative || !overflows (ofDigits 10 (whole ++ fraction)) (exponent - fraction.length)
    | none => false

/-- A number of two digits up to `limit`, and what follows it. -/
def twoDigits? (limit : Nat) : List Char → Option (Nat × List Char)
  | c :: d :: rest =>
      let value := ofDigits 10 [c, d]
      if c.isDigit && d.isDigit && value ≤ limit then some (value, rest) else none
  | _ => none

def daysInMonth (year month : Nat) : Nat :=
  if month = 2 then
    if year % 4 = 0 ∧ (year % 100 ≠ 0 ∨ year % 400 = 0) then 29 else 28
  else if month ∈ [4, 6, 9, 11] then 30
  else 31

/-- What follows a date at the start of a word. -/
def afterDate? : List Char → Option (List Char)
  | a :: b :: c :: d :: '-' :: rest => do
      if [a, b, c, d].all Char.isDigit then
        let (month, rest) ← twoDigits? 12 rest
        match rest with
        | '-' :: rest => do
            let (day, rest) ← twoDigits? (daysInMonth (ofDigits 10 [a, b, c, d]) month) rest
            if month = 0 ∨ day = 0 then none else return rest
        | _ => none
      else
        none
  | _ => none

/-- What follows a time of day at the start of a word. -/
def afterTime? (word : List Char) : Option (List Char) := do
  match ← twoDigits? 23 word with
  | (_, ':' :: rest) =>
      match ← twoDigits? 59 rest with
      | (_, ':' :: rest) =>
          match ← twoDigits? 60 rest with
          | (_, '.' :: c :: rest) =>
              if c.isDigit then return rest.dropWhile Char.isDigit else none
          | (_, rest) => return rest
      | _ => none
  | _ => none

/-- A distance from universal time, or nothing. -/
def isOffset : List Char → Bool
  | [] | ['Z'] | ['z'] => true
  | '+' :: rest | '-' :: rest =>
      match twoDigits? 23 rest with
      | some (_, ':' :: rest) => (twoDigits? 59 rest).any (·.2.isEmpty)
      | _ => false
  | _ => false

/-- A time of day, perhaps with an offset. -/
def isTimeWithOffset (word : List Char) : Bool :=
  (afterTime? word).any isOffset

def isDate (word : List Char) : Bool :=
  (afterDate? word).any List.isEmpty

/-- A date, a time of day, or both in one word. -/
def isTime (word : List Char) : Bool :=
  match afterDate? word with
  | some [] => true
  | some (c :: rest) => (c = 'T' || c = 't') && isTimeWithOffset rest
  | none => (afterTime? word).any List.isEmpty

/-- The value of a word. -/
def scalar? (word : List Char) : Option Value :=
  if word = ['t', 'r', 'u', 'e'] then some (.boolean true)
  else if word = ['f', 'a', 'l', 's', 'e'] then some (.boolean false)
  else if isTime word then some (.time (String.ofList word))
  else if isFloat word then some (.float (String.ofList word))
  else (integer? word).map .integer

end Residual.Toml
