import PhpLint.Text.Bytes

/-!
Lines of a text: the line number of a byte offset, and the short excerpt of a text that
diagnostics quote.
-/

namespace PhpLint.Text

def newlines (cs : List Char) : Nat := cs.count '\n'

/-- Line of the character at byte `offset`, counted from one. -/
def lineAt (source : String) (offset : Nat) : Nat := newlines (takeBytes offset source.toList) + 1

/-- Characters since the last newline of a text. -/
def lastLineLength (cs : List Char) : Nat := (cs.reverse.takeWhile (· != '\n')).length

/-- A line ends before `\n` or `\r\n`; a last line without a newline keeps its `\r`. -/
def firstLine (cs : List Char) : List Char :=
  let line := cs.takeWhile (· != '\n')
  if line.length < cs.length && line.getLast? == some '\r' then line.dropLast else line

/-- The first line of a text, cut after thirty characters. -/
def excerpt (cs : List Char) : String :=
  let line := firstLine cs
  if line.length ≤ 30 then .ofList line else .ofList (line.take 30) ++ "..."

end PhpLint.Text
