import PhpLint.Token.Basic

/-!
Heredocs: `<<<`, a label that may be quoted, and text up to the first line that begins with the
label. The quote after a quoted label is skipped unread; where the text ends instead, scanning
has nothing to skip and fails.
-/

namespace PhpLint.Token

/-- Why a text cannot be scanned. -/
inductive Fault where
  /-- A heredoc label is opened by a quote and ends the text. -/
  | openHeredocQuote
  deriving DecidableEq, Inhabited, Repr

def Fault.message : Fault → String
  | openHeredocQuote => "the text ends inside a heredoc label"

def nameLength (cs : List Char) : Nat :=
  match cs with
  | [] => 0
  | c :: _ => if isNameStart c then (cs.takeWhile isNamePart).length else 0

namespace Heredoc

def isIndent (c : Char) : Bool := c == ' ' || c == '\t'

/-- Length of an indented `label` at the start of a line, where no longer name stands. -/
def markerLength? (label line : List Char) : Option Nat :=
  let body := line.dropWhile isIndent
  if label.isPrefixOf body && !((body.drop label.length).head?.any isNamePart) then
    some ((line.takeWhile isIndent).length + label.length)
  else none

/-- Characters up to the end of the first `label` that begins a later line. -/
def bodyLength? (label : List Char) : List Char → Option Nat
  | [] => none
  | c :: cs =>
    let later := (bodyLength? label cs).map (· + 1)
    if c == '\n' then ((markerLength? label cs).map (· + 1)).or later else later

/-- Length of the heredoc that `<<<` opens, `cs` being the text after it. -/
def lengthAfter? (cs : List Char) : Except Fault (Option Nat) :=
  let head := cs.dropWhile isIndent
  let quoted := head.head?.any fun c => c == '\x27' || c == '\x22'
  let quote := if quoted then 1 else 0
  let named := head.drop quote
  let size := nameLength named
  let after := named.drop size
  if size == 0 then .ok none
  else if quoted && after.isEmpty then .error .openHeredocQuote
  else
    let opening := (cs.takeWhile isIndent).length + quote + size + quote
    .ok ((bodyLength? (named.take size) (after.drop quote)).map (3 + opening + ·))

end Heredoc

end PhpLint.Token
