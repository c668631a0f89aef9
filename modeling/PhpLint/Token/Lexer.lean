import PhpLint.Text.Blank
import PhpLint.Token.Heredoc
import PhpLint.Token.Number

/-!
The lexer. A text is cut into tokens without loss: every token is its first character and as
many of the following ones as its class takes, and scanning goes on behind them.
-/

namespace PhpLint.Token

/-- Text stands outside PHP until `<?php`, and again after a close tag. -/
inductive Mode where
  | markup
  | code
  deriving DecidableEq, Inhabited, Repr

/-- What stands at a place of the text: its kind, its length and the mode behind it. -/
structure Lexeme where
  kind : Kind
  length : Nat
  mode : Mode
  deriving DecidableEq, Inhabited, Repr

def isOpenTag : List Char → Bool
  | '<' :: '?' :: p :: h :: q :: _ => p.toLower == 'p' && h.toLower == 'h' && q.toLower == 'p'
  | _ => false

/-- Characters before the first open tag. -/
def markupLength : List Char → Nat
  | [] => 0
  | c :: cs => if isOpenTag (c :: cs) then 0 else 1 + markupLength cs

def lineCommentLength : List Char → Nat
  | [] => 0
  | '\n' :: _ => 0
  | '?' :: '>' :: _ => 0
  | _ :: cs => 1 + lineCommentLength cs

/-- Characters through the first `*/`, or all of them. -/
def blockCommentLength : List Char → Nat
  | [] => 0
  | '*' :: '/' :: _ => 2
  | _ :: cs => 1 + blockCommentLength cs

/-- Characters through the bracket that closes `depth` open ones, or all of them. -/
def bracketedLength : Nat → List Char → Nat
  | _, [] => 0
  | depth, c :: cs =>
    if c == '[' then 1 + bracketedLength (depth + 1) cs
    else if c == ']' then if depth ≤ 1 then 1 else 1 + bracketedLength (depth - 1) cs
    else 1 + bracketedLength depth cs

/-- Characters through the first quote that no backslash precedes. -/
def quotedLength? (quote : Char) : List Char → Option Nat
  | [] => none
  | '\\' :: [] => none
  | '\\' :: _ :: cs => (quotedLength? quote cs).map (· + 2)
  | c :: cs => if c == quote then some 1 else (quotedLength? quote cs).map (· + 1)

/-- Length of a name with namespace separators: a separator belongs to it where a name follows. -/
def qualifiedLength : List Char → Nat
  | [] => 0
  | [c] => if isNamePart c then 1 else 0
  | c :: d :: cs =>
    if isNamePart c || (c == '\\' && isNameStart d) then 1 + qualifiedLength (d :: cs) else 0

def nameKind (name : List Char) : Kind :=
  if name.contains '\\' then .ident else (Kind.ofKeyword? (.ofList name)).getD .ident

def operatorAt? (cs : List Char) : Option Lexeme :=
  (operators.find? fun op => op.1.toList.isPrefixOf cs).map fun op => ⟨op.2, op.1.length, .code⟩

/-- A string of the given kind, or an error token that takes the rest of the text. -/
def quotedLexeme (kind : Kind) (quote : Char) (rest : List Char) : Lexeme :=
  match quotedLength? quote rest with
  | some n => ⟨kind, 1 + n, .code⟩
  | none => ⟨.errorToken, 1 + rest.length, .code⟩

/-- The lexeme at `c :: rest`, heredocs aside. -/
def plainLexeme (c : Char) (rest : List Char) : Lexeme :=
  let cs := c :: rest
  let next := rest.head?
  if c == '\x60' then quotedLexeme .shellCommand c rest
  else if c == '#' || (c == '/' && next == some '/') then ⟨.comment, lineCommentLength cs, .code⟩
  else if c == '/' && next == some '*' then
    ⟨.comment, 2 + blockCommentLength (rest.drop 1), .code⟩
  else if c == '$' then
    let size := nameLength rest
    if size == 0 then ⟨.dollar, 1, .code⟩ else ⟨.varName, 1 + size, .code⟩
  else if c == '\x27' || c == '\x22' then quotedLexeme .string c rest
  else if c.isDigit || (c == '.' && next.any Char.isDigit) then
    let (kind, length) := number cs
    ⟨kind, length, .code⟩
  else if isNameStart c || (c == '\\' && next.any isNameStart) then
    let length := qualifiedLength cs
    ⟨nameKind (cs.take length), length, .code⟩
  else (operatorAt? cs).getD ⟨.errorToken, 1, .code⟩

def codeLexeme (c : Char) (rest : List Char) : Except Fault Lexeme :=
  let cs := c :: rest
  if c == '?' && rest.head? == some '>' then
    .ok ⟨.closeTag, if rest.drop 1 |>.head? |>.any (· == '\n') then 3 else 2, .markup⟩
  else if Text.isBlank c then .ok ⟨.whitespace, (cs.takeWhile Text.isBlank).length, .code⟩
  else if c == '#' && rest.head? == some '[' then
    .ok ⟨.comment, 1 + bracketedLength 0 rest, .code⟩
  else if ['<', '<', '<'].isPrefixOf cs then
    match Heredoc.lengthAfter? (cs.drop 3) with
    | .error fault => .error fault
    | .ok (some length) => .ok ⟨.heredoc, length, .code⟩
    | .ok none => .ok (plainLexeme c rest)
  else .ok (plainLexeme c rest)

def markupLexeme (c : Char) (rest : List Char) : Lexeme :=
  let cs := c :: rest
  if isOpenTag cs then ⟨.openTag, 5, .code⟩ else ⟨.inlineHtml, markupLength cs, .markup⟩

def lexeme (mode : Mode) (c : Char) (rest : List Char) : Except Fault Lexeme :=
  match mode with
  | .markup => .ok (markupLexeme c rest)
  | .code => codeLexeme c rest

def scan (mode : Mode) (cs : List Char) : Except Fault (List Token) :=
  match cs with
  | [] => .ok []
  | c :: rest =>
    match lexeme mode c rest with
    | .error fault => .error fault
    | .ok found =>
      let further := found.length - 1
      match scan found.mode (rest.drop further) with
      | .error fault => .error fault
      | .ok tokens => .ok (⟨found.kind, .ofList (c :: rest.take further)⟩ :: tokens)
termination_by cs.length
decreasing_by simp only [List.length_drop, List.length_cons]; omega

/-- The tokens of a file, whose text before the open tag is markup. -/
def ofFile (source : String) : Except Fault (List Token) := scan .markup source.toList

/-- The tokens of code that needs no open tag. -/
def ofCode (source : String) : Except Fault (List Token) := scan .code source.toList

/-- The kind of a text that is exactly one token. -/
def classify (text : String) : Except Fault (Option Kind) :=
  (ofCode text).map fun
    | [only] => if only.kind = .errorToken then none else some only.kind
    | _ => none

end PhpLint.Token
