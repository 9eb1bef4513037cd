import Residual.Toml.Scalar

/-!
# Reading TOML

`Document.read?` reads the statements of a document and `entries?` what they come to.  A reader
takes characters from the front of a text and may fail; its loops end since the text does.
-/

set_option autoImplicit false

namespace Residual.Toml

/-- A computation that takes characters from the front of a text, or fails. -/
abbrev Reader := StateT (List Char) Option

namespace Reader

variable {Item : Type}

/-- Repeats `item` until it gives nothing, at most `limit` times. -/
def upTo (item : Reader (Option Item)) : (limit : Nat) → Reader (List Item)
  | 0 => failure
  | limit + 1 => do
      match ← item with
      | some first => return first :: (← upTo item limit)
      | none => return []

/-- Repeats `item`, which takes characters, until it gives nothing. -/
def many (item : Reader (Option Item)) : Reader (List Item) := do
  upTo item ((← get).length + 1)

def peek : Reader (Option Char) :=
  return (← get).head?

def next : Reader Char := do
  match ← get with
  | c :: rest =>
      set rest
      return c
  | [] => failure

/-- Takes a character that has to come next. -/
def expect (c : Char) : Reader Unit := do
  if (← next) ≠ c then failure

/-- Takes a text if it comes next, and tells whether it did. -/
def accept (text : List Char) : Reader Bool := do
  let rest ← get
  if text.isPrefixOf rest then
    set (rest.drop text.length)
    return true
  else
    return false

/-- Takes all characters of a class that come next. -/
def takeWhile (accepted : Char → Bool) : Reader (List Char) :=
  modifyGet fun rest => (rest.takeWhile accepted, rest.dropWhile accepted)

def isBlank (c : Char) : Bool :=
  c = ' ' || c = '\t'

/-- A character that can stand in a comment or a string. -/
def isPlain (c : Char) : Bool :=
  c = '\t' || (0x20 ≤ c.toNat && c.toNat ≠ 0x7f)

def blanks : Reader Unit := do
  let _ ← takeWhile isBlank

/-- Takes the end of a line if it comes next, and tells whether it did. -/
def newline : Reader Bool := do
  if ← accept ['\n'] then return true else accept ['\r', '\n']

/-- Takes a comment if one comes next. -/
def comment : Reader Unit := do
  if ← accept ['#'] then
    let _ ← takeWhile isPlain

/-- Takes the rest of a line that has nothing more to say. -/
def lineEnd : Reader Unit := do
  blanks
  comment
  if !(← newline) && !(← get).isEmpty then failure

/-- Takes blanks, comments and line ends. -/
def blankLines : Reader Unit := do
  let _ ← many do
    blanks
    comment
    return if ← newline then some () else none

/-! ## Strings -/

/-- The character with a number of `count` hexadecimal digits. -/
def codePoint (count : Nat) : Reader Char := do
  let digits := (← get).take count
  modify (List.drop count)
  let number := ofDigits 16 digits
  if digits.length = count ∧ digits.all (isDigitOf 16) ∧ number.isValidChar then
    return Char.ofNat number
  else
    failure

/-- What a backslash and the characters after it stand for. -/
def escaped : Reader Char := do
  match ← next with
  | 'b' => return '\x08'
  | 't' => return '\t'
  | 'n' => return '\n'
  | 'f' => return '\x0c'
  | 'r' => return '\r'
  | '"' => return '"'
  | '\\' => return '\\'
  | 'u' => codePoint 4
  | 'U' => codePoint 8
  | _ => failure

/-- The next character of a string on one line, which ends with `delimiter`. -/
def lineChar (delimiter : Char) (escapes : Bool) : Reader (Option Char) := do
  let c ← next
  if c = delimiter then return none
  else if escapes && c = '\\' then return some (← escaped)
  else if isPlain c then return some c
  else failure

/-- The next characters of a string on several lines, which ends with three delimiters.  Up to two
more delimiters may stand before them.  A backslash at the end of a line joins it to the next
character that is not blank. -/
def lineChars (delimiter : Char) (escapes : Bool) : Reader (Option (List Char)) := do
  let delimiters := (← get).takeWhile (· = delimiter)
  if delimiters.length = 3 then
    modify (List.drop 3)
    return none
  else if 5 < delimiters.length then
    failure
  else if ← newline then
    return some ['\n']
  else
    let c ← next
    if c = delimiter || (isPlain c && !(escapes && c = '\\')) then
      return some [c]
    else if escapes && c = '\\' then
      if (← get).head?.any fun c => isBlank c || c = '\n' || c = '\r' then
        blanks
        if !(← newline) then failure
        let _ ← many do
          blanks
          return if ← newline then some () else none
        return some []
      else
        return some [← escaped]
    else
      failure

/-- A string on one line, after its opening delimiter. -/
def lineString (delimiter : Char) (escapes : Bool) : Reader String := do
  return String.ofList (← many (lineChar delimiter escapes))

/-- A string, after its first delimiter. -/
def string (delimiter : Char) (escapes : Bool) : Reader String := do
  if ← accept [delimiter, delimiter] then
    let _ ← newline
    return String.ofList (← many (lineChars delimiter escapes)).flatten
  else
    lineString delimiter escapes

/-! ## Keys and values -/

def isBareKeyChar (c : Char) : Bool :=
  c.isAlphanum || c = '-' || c = '_'

/-- One name of a key, which is quoted if it holds other characters than bare keys may. -/
def name : Reader String := do
  if ← accept ['"'] then
    lineString '"' true
  else if ← accept ['\''] then
    lineString '\'' false
  else
    let letters ← takeWhile isBareKeyChar
    if letters.isEmpty then failure
    return String.ofList letters

/-- One name of a key with the blanks around it. -/
def spacedName : Reader String := do
  blanks
  let name ← name
  blanks
  return name

/-- How deep values, and the names of a key, may be nested. -/
def depthLimit : Nat := 79

/-- Names with dots between them. -/
def path : Reader Path := do
  let first ← spacedName
  let others ← many do
    if ← accept ['.'] then return some (← spacedName) else return none
  if others.length < depthLimit then
    let names := first :: others
    return ⟨names.dropLast, names.getLast (List.cons_ne_nil first others)⟩
  else
    failure

/-- A word, or a date and a time. -/
def scalar : Reader Value := do
  let word ← takeWhile isWordChar
  match ← get with
  | ' ' :: c :: rest =>
      if isDate word && c.isDigit then
        set (c :: rest)
        let time ← takeWhile isWordChar
        if isTimeWithOffset time then
          return .time (String.ofList (word ++ ' ' :: time))
        else
          failure
      else
        scalar? word
  | _ => scalar? word

/-- The next item of an array.  There are no more after one without a comma. -/
def arrayItem (value : Reader Value) : Reader (Option Value) := do
  blankLines
  if (← peek) = some ']' then
    return none
  else
    let item ← value
    blankLines
    if !(← accept [',']) && (← peek) ≠ some ']' then failure
    return some item

/-- A key with its value. -/
def setting (value : Reader Value) : Reader Setting := do
  let path ← path
  expect '='
  blanks
  return ⟨path, ← value⟩

/-- Settings with commas between them, and the brace after them. -/
def inlineSettings (value : Reader Value) : Reader (List Setting) := do
  blanks
  if ← accept ['\x7d'] then
    return []
  else
    let first ← setting value
    let others ← many do
      blanks
      if ← accept [','] then return some (← setting value) else return none
    expect '\x7d'
    return first :: others

/-- A value, given how the rest of arrays and inline tables is read. -/
def valueWith (array table : Reader Value) : Reader Value := do
  if ← accept ['"'] then return .string (← string '"' true)
  else if ← accept ['\''] then return .string (← string '\'' false)
  else if ← accept ['['] then array
  else if ← accept ['\x7b'] then table
  else scalar

/-- A value with up to `depth` arrays and tables inside each other. -/
def value : (depth : Nat) → Reader Value
  | 0 => valueWith failure failure
  | depth + 1 =>
      let array := do
        let items ← many (arrayItem (value depth))
        expect ']'
        return .array items
      let table := do Setting.inlineTable? (← inlineSettings (value depth))
      valueWith array table

/-! ## Documents -/

/-- One line of a document. -/
inductive Statement where
  | nothing
  | header (kind : HeaderKind) (path : Path)
  | setting (setting : Setting)

/-- A path in brackets, or in two pairs of brackets. -/
def header : Reader Statement := do
  expect '['
  if ← accept ['['] then
    let path ← path
    expect ']'
    expect ']'
    return .header .element path
  else
    let path ← path
    expect ']'
    return .header .table path

/-- The next line, unless the text has ended. -/
def statement : Reader (Option Statement) := do
  blanks
  match ← peek with
  | none => return none
  | some '#' | some '\n' | some '\r' =>
      lineEnd
      return some .nothing
  | some '[' =>
      let header ← header
      lineEnd
      return some header
  | some _ =>
      let setting ← setting (value depthLimit)
      lineEnd
      return some (.setting setting)

/-- A document with one more statement before it. -/
def Statement.addTo (statement : Statement) (document : Document) : Document :=
  match statement with
  | .nothing => document
  | .setting first => { document with settings := first :: document.settings }
  | .header kind path => ⟨[], ⟨kind, path, document.settings⟩ :: document.sections⟩

end Reader

/-- The statements of a document, if it is well-formed.  A byte order mark may precede it. -/
def Document.read? (text : String) : Option Document := do
  let chars :=
    match text.toList with
    | '\ufeff' :: rest => rest
    | chars => chars
  let (statements, _) ← (Reader.many Reader.statement).run chars
  return statements.foldr Reader.Statement.addTo ⟨[], []⟩

/-- The entries of a document's top table, if the document is valid. -/
def read? (text : String) : Option (List (String × Value)) := do
  (← Document.read? text).entries?

end Residual.Toml
