import PhpLint.Text.Bytes
import PhpLint.Token.Lexer

/-!
The lexer by byte offsets. Every part of the text that it looks at is cut out at an offset it has
computed, and a cut beyond the end of the text or inside a character has no result; nor has a depth
below zero, or a loop that stays where it is. Which of these can happen is left to proof.
-/

namespace PhpLint.Token.Bytewise

open Text (byteLength isBlank)
open Heredoc (isIndent)

/-- What can go wrong at a computed offset. -/
inductive Misstep where
  /-- A cut is out of range, or falls inside a character. -/
  | cut
  /-- A bracket is closed that none has opened. -/
  | depth
  /-- A loop does not move on, or leaves the text. -/
  | stuck
  deriving DecidableEq, Inhabited, Repr

/-- The first `n` bytes, and the text behind them. -/
def cut : Nat → List Char → Except Misstep (List Char × List Char)
  | 0, cs => .ok ([], cs)
  | _ + 1, [] => .error .cut
  | n + 1, c :: cs =>
    if n + 1 < c.utf8Size then .error .cut
    else (cut (n + 1 - c.utf8Size) cs).map fun parts => (c :: parts.1, parts.2)

def before (n : Nat) (cs : List Char) : Except Misstep (List Char) := (cut n cs).map Prod.fst

def behind (n : Nat) (cs : List Char) : Except Misstep (List Char) := (cut n cs).map Prod.snd

def between (start stop : Nat) (cs : List Char) : Except Misstep (List Char) := do
  behind start (← before stop cs)

/-- Offset of the first character that is as asked. -/
def find? (p : Char → Bool) : List Char → Option Nat
  | [] => none
  | c :: cs => if p c then some 0 else (find? p cs).map (c.utf8Size + ·)

/-- Offset of the first place where the text `part` stands. -/
def findText? (part : List Char) : List Char → Option Nat
  | [] => none
  | c :: cs =>
    if part.isPrefixOf (c :: cs) then some 0 else (findText? part cs).map (c.utf8Size + ·)

/-- The characters, each with its offset. -/
def indices (offset : Nat) : List Char → List (Nat × Char)
  | [] => []
  | c :: cs => (offset, c) :: indices (offset + c.utf8Size) cs

/-- Bytes up to the first character that is not as asked. -/
def runBytes (p : Char → Bool) (cs : List Char) : Nat :=
  (find? (fun c => !p c) cs).getD (byteLength cs)

/-- Whether `here` and behind `n` bytes a character as asked; the cut is made only if `here`. -/
def followed (here : Bool) (n : Nat) (p : Char → Bool) (cs : List Char) : Except Misstep Bool :=
  if here then (behind n cs).map fun after => after.head?.any p else .ok false

/-- A loop whose place `pos` has to move on with every turn, up to `limit`. -/
def loop {σ α : Type} (limit : Nat) (pos : σ → Nat) (body : σ → Except Misstep (σ ⊕ α)) (s : σ) :
    Except Misstep α :=
  match body s with
  | .error misstep => .error misstep
  | .ok (.inr result) => .ok result
  | .ok (.inl next) =>
    if pos s < pos next ∧ pos next ≤ limit then loop limit pos body next else .error .stuck
termination_by limit - pos s

def nameBytes (cs : List Char) : Nat :=
  if cs.head?.any isNameStart then runBytes isNamePart cs else 0

def lineCommentBytes (cs : List Char) : Except Misstep Nat := do
  let stop := runBytes (· != '\n') cs
  return (findText? ['?', '>'] (← before stop cs)).getD stop

def blockCommentBytes (cs : List Char) : Except Misstep Nat := do
  return ((findText? ['*', '/'] (← behind 2 cs)).map (· + 4)).getD (byteLength cs)

/-- Offset behind the bracket that closes the first one. -/
def closing? : Nat → List (Nat × Char) → Except Misstep (Option Nat)
  | _, [] => .ok none
  | depth, (offset, c) :: more =>
    if c == '[' then closing? (depth + 1) more
    else if c == ']' then
      if depth == 0 then .error .depth
      else if depth - 1 == 0 then .ok (some (offset + 1))
      else closing? (depth - 1) more
    else closing? depth more

def attributeBytes (cs : List Char) : Except Misstep Nat := do
  return (← closing? 0 ((indices 0 cs).drop 1)).getD (byteLength cs)

/-- Offset behind the first quote that no backslash escapes. -/
def unescaped? (quote : Char) : Bool → List (Nat × Char) → Option Nat
  | _, [] => none
  | true, _ :: more => unescaped? quote false more
  | false, (offset, c) :: more =>
    if c == '\\' then unescaped? quote true more
    else if c == quote then some (offset + 1)
    else unescaped? quote false more

def quotedBytes? (quote : Char) (cs : List Char) : Option Nat :=
  unescaped? quote false ((indices 0 cs).drop 1)

/-- A name or a separator behind `size` bytes of a qualified name. -/
def qualifiedStep (cs : List Char) (size : Nat) : Except Misstep (Nat ⊕ Nat) := do
  let tail ← behind size cs
  if ← followed (tail.head? == some '\\') 1 isNameStart tail then return .inl (size + 1)
  let part := nameBytes tail
  if part == 0 then return .inr size
  let stop := size + part
  if ← followed ((← behind stop cs).head? == some '\\') (stop + 1) isNameStart cs then
    return .inl stop
  return .inr stop

def qualifiedBytes (cs : List Char) : Except Misstep Nat :=
  loop (byteLength cs) id (qualifiedStep cs) 0

def isBased : List Char → Bool
  | '0' :: b :: cs => 2 < byteLength ('0' :: b :: cs) && ['x', 'X', 'b', 'B', 'o', 'O'].contains b
  | _ => false

/-- A number up to its exponent. -/
def mantissa (cs : List Char) : Except Misstep (Kind × Nat) := do
  let whole := runBytes isDigitPart cs
  if ← followed ((← behind whole cs).head? == some '.') (whole + 1) Char.isDigit cs then
    return (.floatNumber, whole + (1 + runBytes isDigitPart (← behind (whole + 1) cs)))
  if whole == 0 && cs.head? == some '.' then
    return (.floatNumber, 1 + runBytes isDigitPart (← behind 1 cs))
  return (.intNumber, whole)

def exponentBytes (tail : List Char) : Except Misstep Nat := do
  if tail.head?.any fun c => c == 'e' || c == 'E' then
    let sign := if (← behind 1 tail).head?.any fun c => c == '+' || c == '-' then 1 else 0
    let digits := runBytes isDigitPart (← behind (1 + sign) tail)
    return if 0 < digits then 1 + sign + digits else 0
  return 0

def number (cs : List Char) : Except Misstep (Kind × Nat) := do
  if isBased cs then
    let digits := (find? (fun c => !isHexPart c) (← behind 2 cs)).getD (byteLength cs - 2)
    return (.intNumber, 2 + digits)
  let (kind, size) ← mantissa cs
  let exponent ← exponentBytes (← behind size cs)
  return if 0 < exponent then (.floatNumber, size + exponent) else (kind, size)

/-- Whether the line behind `start` bytes closes a heredoc, and where the next one begins. -/
def lineStep (label cs : List Char) (start : Nat) : Except Misstep (Nat ⊕ Option Nat) := do
  let stop := (find? (· == '\n') (← behind start cs)).elim (byteLength cs) (start + ·)
  let line ← between start stop cs
  let body := line.dropWhile isIndent
  let indent := byteLength line - byteLength body
  let opens := label.isPrefixOf body
  let longer ← followed opens (byteLength label) isNamePart body
  if opens && !longer then return .inr (some (start + indent + byteLength label))
  if stop == byteLength cs then return .inr none
  return .inl (stop + 1)

def quoteBytes (head : List Char) : Nat :=
  if head.head?.any fun c => c == '\x27' || c == '\x22' then 1 else 0

/-- Length of a heredoc whose label begins behind `start` bytes and has `quote` bytes behind it that
are skipped unread. -/
def labelledBytes? (start quote : Nat) (cs : List Char) : Except Misstep (Option Nat) := do
  let size := nameBytes (← behind start cs)
  if size == 0 then return none
  let label ← between start (start + size) cs
  let opening := start + size + quote
  match find? (· == '\n') (← behind opening cs) with
  | none => return none
  | some line => loop (byteLength cs) id (lineStep label cs) (opening + (line + 1))

def heredocBytes? (cs : List Char) : Except Misstep (Option Nat) := do
  let head := (← behind 3 cs).dropWhile isIndent
  let quote := quoteBytes head
  labelledBytes? (byteLength cs - byteLength head + quote) quote cs

def quotedLexeme (kind : Kind) (quote : Char) (cs : List Char) : Lexeme :=
  match quotedBytes? quote cs with
  | some size => ⟨kind, size, .code⟩
  | none => ⟨.errorToken, byteLength cs, .code⟩

def operatorLexeme (c : Char) (cs : List Char) : Lexeme :=
  match operators.find? fun op => op.1.toList.isPrefixOf cs with
  | some op => ⟨op.2, op.1.utf8ByteSize, .code⟩
  | none => ⟨.errorToken, c.utf8Size, .code⟩

/-- The lexeme at the start of `cs`, whose first character is `c`, heredocs aside. The length is in
bytes, here and below. -/
def plainLexeme (c : Char) (cs : List Char) : Except Misstep Lexeme := do
  if c == '\x60' then return quotedLexeme .shellCommand c cs
  if ['/', '/'].isPrefixOf cs || c == '#' then return ⟨.comment, ← lineCommentBytes cs, .code⟩
  if ['/', '*'].isPrefixOf cs then return ⟨.comment, ← blockCommentBytes cs, .code⟩
  if c == '$' then
    let size := nameBytes (← behind 1 cs)
    return if 0 < size then ⟨.varName, size + 1, .code⟩ else ⟨.dollar, 1, .code⟩
  if c == '\x27' || c == '\x22' then return quotedLexeme .string c cs
  if c.isDigit || (← followed (c == '.') 1 Char.isDigit cs) then
    let (kind, size) ← number cs
    return ⟨kind, size, .code⟩
  if isNameStart c || (← followed (c == '\\') 1 isNameStart cs) then
    let size ← qualifiedBytes cs
    return ⟨nameKind (← before size cs), size, .code⟩
  return operatorLexeme c cs

def codeLexeme : List Char → Except Misstep Lexeme
  | [] => .error .stuck
  | c :: rest => do
    let cs := c :: rest
    if ['?', '>'].isPrefixOf cs then
      let size := if (← behind 2 cs).head? == some '\n' then 3 else 2
      return ⟨.closeTag, size, .markup⟩
    if isBlank c then return ⟨.whitespace, runBytes isBlank cs, .code⟩
    if ['#', '['].isPrefixOf cs then return ⟨.comment, ← attributeBytes cs, .code⟩
    if ['<', '<', '<'].isPrefixOf cs then
      if let some size ← heredocBytes? cs then return ⟨.heredoc, size, .code⟩
    plainLexeme c cs

def markupLexeme (cs : List Char) : Lexeme :=
  match findText? ['<', '?', 'p', 'h', 'p'] (cs.map Char.toLower) with
  | some 0 => ⟨.openTag, 5, .code⟩
  | some size => ⟨.inlineHtml, size, .markup⟩
  | none => ⟨.inlineHtml, byteLength cs, .markup⟩

def lexeme : Mode → List Char → Except Misstep Lexeme
  | .markup, cs => .ok (markupLexeme cs)
  | .code, cs => codeLexeme cs

/-- How far a scan has come. -/
structure Cursor where
  pos : Nat
  mode : Mode
  tokens : List Token

/-- One turn of the scan. -/
def Cursor.turn (source : List Char) (cursor : Cursor) :
    Except Misstep (Cursor ⊕ List Token) := do
  if byteLength source ≤ cursor.pos then return .inr cursor.tokens
  let rest ← behind cursor.pos source
  let found ← lexeme cursor.mode rest
  let stop := cursor.pos + found.length
  let text ← between cursor.pos stop source
  return .inl ⟨stop, found.mode, cursor.tokens ++ [⟨found.kind, .ofList text⟩]⟩

def scan (mode : Mode) (source : List Char) : Except Misstep (List Token) :=
  loop (byteLength source) Cursor.pos (Cursor.turn source) ⟨0, mode, []⟩

/-- The tokens of a file, whose text before the open tag is markup. -/
def ofFile (source : String) : Except Misstep (List Token) := scan .markup source.toList

/-- The tokens of code that needs no open tag. -/
def ofCode (source : String) : Except Misstep (List Token) := scan .code source.toList

end PhpLint.Token.Bytewise
