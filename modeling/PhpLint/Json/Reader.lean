import PhpLint.Json.Value
import PhpLint.Text.Bytes

/-!
Reading JSON text from left to right. A reader uses up text and keeps count of lines and columns,
so that a fault names the byte where it was seen: the last one read, or the one that comes next.
-/

namespace PhpLint.Json

/-- What is wrong with a text. -/
inductive Cause where
  | endInList
  | endInObject
  | endInString
  | endInValue
  | expectedColon
  | expectedListEnd
  | expectedObjectEnd
  | expectedWord
  | expectedValue
  | badEscape
  | badNumber
  | controlCharacter
  | keyNotString
  | loneSurrogate
  | numberTooLarge
  | trailingComma
  | trailingText
  | endInSurrogate
  | wrongType (found expected : String)
  | duplicateField (name : String)
  deriving DecidableEq, Inhabited, Repr

def Cause.message : Cause → String
  | endInList => "EOF while parsing a list"
  | endInObject => "EOF while parsing an object"
  | endInString => "EOF while parsing a string"
  | endInValue => "EOF while parsing a value"
  | expectedColon => "expected `:`"
  | expectedListEnd => "expected `,` or `]`"
  | expectedObjectEnd => "expected `,` or `" ++ "\x7d`"
  | expectedWord => "expected ident"
  | expectedValue => "expected value"
  | badEscape => "invalid escape"
  | badNumber => "invalid number"
  | controlCharacter => "control character (\\u0000-\\u001F) found while parsing a string"
  | keyNotString => "key must be a string"
  | loneSurrogate => "lone leading surrogate in hex escape"
  | numberTooLarge => "number out of range"
  | trailingComma => "trailing comma"
  | trailingText => "trailing characters"
  | endInSurrogate => "unexpected end of hex escape"
  | wrongType found expected => "invalid type: " ++ found ++ ", expected " ++ expected
  | duplicateField name => "duplicate field `" ++ name ++ "`"

structure ReadError where
  cause : Cause
  line : Nat
  column : Nat
  deriving DecidableEq, Inhabited, Repr

def ReadError.message (e : ReadError) : String :=
  e.cause.message ++ " at line " ++ toString e.line ++ " column " ++ toString e.column

/-- The exponent of a number as it is written. -/
structure Exponent where
  negative : Bool
  digits : List Char
  deriving DecidableEq, Inhabited, Repr

/-- A number as it is written, without its sign. The fraction is empty if there is no point. -/
structure NumberText where
  whole : List Char
  fraction : List Char
  exponent : Option Exponent
  deriving DecidableEq, Inhabited, Repr

/-- The text still to read, and the place reached: its line, and the bytes of the line so far. -/
structure Scan where
  rest : List Char
  line : Nat
  column : Nat
  deriving DecidableEq, Inhabited, Repr

abbrev Reader := EStateM ReadError Scan

namespace Reader

def pass (line column : Nat) (c : Char) : Nat × Nat :=
  if c == '\n' then (line + 1, 0) else (line, column + c.utf8Size)

/-- A fault at the last byte read. -/
def fail {α : Type} (cause : Cause) : Reader α := do
  let s ← get
  throw ⟨cause, s.line, s.column⟩

/-- A fault at a byte before the last one read, on the same line. -/
def failBack {α : Type} (back : Nat) (cause : Cause) : Reader α := do
  let s ← get
  throw ⟨cause, s.line, s.column - back⟩

/-- A fault at the byte that comes next. -/
def failAhead {α : Type} (cause : Cause) : Reader α := do
  let s ← get
  match s.rest with
  | [] => throw ⟨cause, s.line, s.column⟩
  | c :: _ =>
    if c == '\n' then throw ⟨cause, s.line + 1, 0⟩ else throw ⟨cause, s.line, s.column + 1⟩

def peek : Reader (Option Char) := return (← get).rest.head?

def eat : Reader Unit :=
  modify fun s => match s.rest with
    | [] => s
    | c :: cs =>
      let (line, column) := pass s.line s.column c
      ⟨cs, line, column⟩

def isBlank (c : Char) : Bool := c == ' ' || c == '\n' || c == '\t' || c == '\r'

def skipFrom (line column : Nat) : List Char → Scan
  | [] => ⟨[], line, column⟩
  | c :: cs =>
    if isBlank c then
      let (line, column) := pass line column c
      skipFrom line column cs
    else ⟨c :: cs, line, column⟩

/-- The next character that is not blank. -/
def peekSolid : Reader (Option Char) := do
  modify fun s => skipFrom s.line s.column s.rest
  peek

/-- Text that must follow literally. -/
def word : List Char → Reader Unit
  | [] => return ()
  | c :: cs => do
    match (← peek) with
    | none => fail .endInValue
    | some d => if c == d then do eat; word cs else failAhead .expectedWord

/-! Strings. The opening quote has been read. -/

def hexValue? (c : Char) : Option Nat :=
  if c.isDigit then some (c.toNat - 48)
  else if 'a' ≤ c && c ≤ 'f' then some (c.toNat - 87)
  else if 'A' ≤ c && c ≤ 'F' then some (c.toNat - 55)
  else none

def eatMany : Nat → Reader Unit
  | 0 => return ()
  | n + 1 => do eat; eatMany n

/-- Four hexadecimal digits. Other text is refused behind its fourth byte. -/
def hexUnit : Reader Nat := do
  let digits := Text.takeBytes 4 (← get).rest
  eatMany digits.length
  if Text.byteLength digits < 4 then fail .endInString
  match digits.mapM hexValue? with
  | some values => return values.foldl (fun n d => 16 * n + d) 0
  | none => failBack (Text.byteLength digits - 4) .badEscape

def surrogateStep (expected : Char) : Reader Unit := do
  match (← peek) with
  | none => fail .endInString
  | some c => if c == expected then eat else failAhead .endInSurrogate

/-- The character that `\u` introduces, two units for those beyond the first plane. -/
def unicodeEscape : Reader Char := do
  let high ← hexUnit
  if 0xdc00 ≤ high && high ≤ 0xdfff then fail .loneSurrogate
  if high < 0xd800 || 0xdbff < high then return Char.ofNat high
  surrogateStep '\\'
  surrogateStep 'u'
  let low ← hexUnit
  if low < 0xdc00 || 0xdfff < low then fail .loneSurrogate
  return Char.ofNat ((high - 0xd800) * 0x400 + (low - 0xdc00) + 0x10000)

def simpleEscape? (c : Char) : Option Char :=
  match c with
  | '\x22' => some '\x22'
  | '\\' => some '\\'
  | '/' => some '/'
  | 'b' => some '\x08'
  | 'f' => some '\x0c'
  | 'n' => some '\n'
  | 'r' => some '\r'
  | 't' => some '\t'
  | _ => none

/-- One escape behind its backslash. An escape that is skipped may be half of a character. -/
def escape (skipping : Bool) : Reader Char := do
  match (← peek) with
  | none => fail .endInString
  | some c => match simpleEscape? c with
    | some value =>
      eat
      return value
    | none =>
      if c != 'u' then failAhead .badEscape
      eat
      if skipping then
        let _ ← hexUnit
        return c
      else unicodeEscape

def stringFrom (skipping : Bool) : Nat → List Char → Reader String
  | 0, _ => fail .endInString
  | fuel + 1, done => do
    match (← peek) with
    | none => fail .endInString
    | some c =>
      if c == '\x22' then
        eat
        return .ofList done.reverse
      else if c == '\\' then
        eat
        let value ← escape skipping
        stringFrom skipping fuel (value :: done)
      else if c.toNat < 0x20 then
        if skipping then fail .controlCharacter else failAhead .controlCharacter
      else
        eat
        stringFrom skipping fuel (c :: done)

def string (skipping : Bool) : Reader String := do
  stringFrom skipping ((← get).rest.length + 1) []

/-! Numbers. -/

def digits : Reader (List Char) := do
  let run := (← get).rest.takeWhile Char.isDigit
  eatMany run.length
  return run

/-- A fault in a number: that the text ends is one of its own, where the value matters. -/
def numberFault {α : Type} (skipping : Bool) : Reader α := do
  match (← peek) with
  | none => if skipping then fail .badNumber else fail .endInValue
  | some _ => failAhead .badNumber

def wholePart (skipping : Bool) : Reader (List Char) := do
  match (← peek) with
  | some '0' =>
    eat
    if (← peek).any Char.isDigit then failAhead .badNumber
    return ['0']
  | some c => if c.isDigit then digits else numberFault skipping
  | none => numberFault skipping

def fractionPart (skipping : Bool) : Reader (List Char) := do
  if (← peek) != some '.' then return []
  eat
  let run ← digits
  if run.isEmpty then numberFault skipping
  return run

def exponentPart (skipping : Bool) : Reader (Option Exponent) := do
  match (← peek) with
  | some c =>
    if c != 'e' && c != 'E' then return none
    eat
    let sign := (← peek).filter fun s => s == '+' || s == '-'
    if sign.isSome then eat
    if !(← peek).any Char.isDigit then numberFault skipping
    return some ⟨sign == some '-', ← digits⟩
  | none => return none

/-- A number without its sign. -/
def number (skipping : Bool) : Reader NumberText := do
  let whole ← wholePart skipping
  let fraction ← fractionPart skipping
  let exponent ← exponentPart skipping
  return ⟨whole, fraction, exponent⟩

/-! Lists and objects. -/

/-- Whether a list has another element. `first` tells that none was read. -/
def hasElement (first : Bool) : Reader Bool := do
  match (← peekSolid) with
  | none => fail .endInList
  | some ']' => return false
  | some c =>
    if first then return true
    if c != ',' then failAhead .expectedListEnd
    eat
    match (← peekSolid) with
    | none => fail .endInValue
    | some ']' => failAhead .trailingComma
    | some _ => return true

def listEnd : Reader Unit := do
  match (← peekSolid) with
  | none => fail .endInList
  | some ']' => eat
  | some ',' =>
    eat
    match (← peekSolid) with
    | some ']' => failAhead .trailingComma
    | _ => failAhead .trailingText
  | some _ => failAhead .trailingText

/-- Whether an object has another key. -/
def hasKey (first : Bool) : Reader Bool := do
  match (← peekSolid) with
  | none => fail .endInObject
  | some '\x7d' => return false
  | some c =>
    if first then
      if c == '\x22' then return true
      failAhead .keyNotString
    if c != ',' then failAhead .expectedObjectEnd
    eat
    match (← peekSolid) with
    | none => fail .endInValue
    | some '\x22' => return true
    | some '\x7d' => failAhead .trailingComma
    | some _ => failAhead .keyNotString

def colon : Reader Unit := do
  match (← peekSolid) with
  | none => fail .endInObject
  | some ':' => eat
  | some _ => failAhead .expectedColon

/-! Values that are passed over. -/

/-- After a value inside open brackets: closes those that end here, and steps over the comma. -/
def closeBrackets : Nat → Bool → List Char → Reader (List Char)
  | 0, _, open_ => return open_
  | _ + 1, _, [] => return []
  | fuel + 1, acceptComma, frame :: outer => do
    let isList := frame == '['
    match (← peekSolid) with
    | none => fail (if isList then .endInList else .endInObject)
    | some c =>
      if c == ',' && acceptComma then
        eat
        return frame :: outer
      else if (c == ']' && isList) || (c == '\x7d' && !isList) then
        eat
        closeBrackets fuel true outer
      else if acceptComma then
        failAhead (if isList then .expectedListEnd else .expectedObjectEnd)
      else return frame :: outer

/-- Inside an object, the key and the colon before the next value. -/
def skipKey : List Char → Reader Unit
  | '\x7b' :: _ => do
    match (← peekSolid) with
    | none => fail .endInObject
    | some '\x22' =>
      eat
      let _ ← string true
      colon
    | some _ => failAhead .keyNotString
  | _ => return ()

/-- One value that is no bracket, or one opening bracket. -/
def skipPiece : Reader (Option Char) := do
  match (← peekSolid) with
  | none => fail .endInValue
  | some 'n' => word ['n', 'u', 'l', 'l']; return none
  | some 't' => word ['t', 'r', 'u', 'e']; return none
  | some 'f' => word ['f', 'a', 'l', 's', 'e']; return none
  | some '-' => do
    eat
    let _ ← number true
    return none
  | some '\x22' => do
    eat
    let _ ← string true
    return none
  | some c =>
    if c.isDigit then
      let _ ← number true
      return none
    else if c == '[' || c == '\x7b' then
      eat
      return some c
    else failAhead .expectedValue

/-- Passes over a value inside the given open brackets, innermost first. -/
def skipWithin : Nat → List Char → Reader Unit
  | 0, _ => return ()
  | fuel + 1, open_ => do
    let (acceptComma, open_) ← match (← skipPiece) with
      | some bracket => pure (false, bracket :: open_)
      | none => pure (true, open_)
    let open_ ← closeBrackets (open_.length + 1) acceptComma open_
    if open_.isEmpty then return ()
    skipKey open_
    skipWithin fuel open_

def skipValue : Reader Unit := do skipWithin ((← get).rest.length + 1) []

def run {α : Type} (reader : Reader α) (text : String) : Except ReadError α :=
  match EStateM.run reader ⟨text.toList, 1, 0⟩ with
  | .ok value _ => .ok value
  | .error e _ => .error e

end Reader

end PhpLint.Json
