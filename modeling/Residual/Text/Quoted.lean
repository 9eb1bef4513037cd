import Residual.Text.Printable

/-!
# Quoted text

How characters and strings are shown inside messages and renderings.  A character is shown as it
is unless it is a delimiter, the backslash, or has no glyph of its own; escapes start with a
backslash.
-/

set_option autoImplicit false

namespace Residual.Text

/-- The backslash escape of a code point by its number, such as `\u{301}`. -/
def codePointEscape (c : Char) : String :=
  "\\u\x7b" ++ String.ofList (Nat.toDigits 16 c.toNat) ++ "\x7d"

/-- One character between quotes.  `delimiter` is the quote that has to be escaped. -/
def escape (delimiter : Char) (c : Char) : String :=
  if c = '\x00' then "\\0"
  else if c = '\t' then "\\t"
  else if c = '\r' then "\\r"
  else if c = '\n' then "\\n"
  else if c = '\\' then "\\\\"
  else if c = delimiter then "\\" ++ c.toString
  else if extendsGrapheme c || !isPrintable c then codePointEscape c
  else c.toString

/-- A character between single quotes. -/
def quoteChar (c : Char) : String :=
  "'" ++ escape '\'' c ++ "'"

/-- A string between double quotes. -/
def quote (text : String) : String :=
  "\"" ++ String.join (text.toList.map (escape '"')) ++ "\""

/-- A character that stands for itself, after a backslash if it is one of `special`. -/
def escapeAmong (special : List Char) (c : Char) : String :=
  if c ∈ special then "\\" ++ c.toString else c.toString

end Residual.Text
