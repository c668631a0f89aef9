import PhpLint.Concrete.Basic
import PhpLint.Json.Reader

/-!
A grammar given by a table: lines of JSON, each with a text and the concrete tree of it as the list
of its pieces. A piece is written `[kind, flags, start, stop, children, field]`, of which the last
two may be left out; the flags are 1 for named, 2 for missing, 4 for an error and 8 for one below.
-/

namespace PhpLint.Concrete.Table

open Json Json.Reader

def natural : Reader Nat := do
  let _ ← peekSolid
  let n ← number false
  if !n.fraction.isEmpty || n.exponent.isSome then fail .badNumber
  return n.whole.foldl (fun value d => 10 * value + (d.toNat - 48)) 0

def quotedText : Reader String := do
  if (← peekSolid) != some '\x22' then failAhead .expectedValue
  eat
  string false

/-- The next element of a list that must have one. -/
def element {α : Type} (first : Bool) (reader : Reader α) : Reader α := do
  if ← hasElement first then reader else failAhead .expectedValue

/-- The next element of a list, if it has one. -/
def element? {α : Type} (first : Bool) (reader : Reader α) : Reader (Option α) := do
  if ← hasElement first then return some (← reader) else return none

def openList : Reader Unit := do
  if (← peekSolid) != some '[' then failAhead .expectedValue
  eat

def hasFlag (flags bit : Nat) : Bool := flags / bit % 2 == 1

/-- A piece and the number of its children. -/
def piece : Reader (Head × Nat) := do
  openList
  let kind ← element true quotedText
  let flags ← element false natural
  let start ← element false natural
  let stop ← element false natural
  let children ← element? false natural
  let field ← if children.isSome then element? false quotedText else pure none
  listEnd
  return (⟨kind, hasFlag flags 1, hasFlag flags 2, hasFlag flags 4, hasFlag flags 8, start, stop,
    field⟩, children.getD 0)

def piecesFrom : Nat → Bool → Reader (List (Head × Nat))
  | 0, _ => return []
  | fuel + 1, first => do
    match (← element? first piece) with
    | some p => return p :: (← piecesFrom fuel false)
    | none => return []

def pieces : Reader (List (Head × Nat)) := do
  openList
  let read ← piecesFrom ((← get).rest.length + 1) true
  listEnd
  return read

def key (first : Bool) (name : String) : Reader Unit := do
  if !(← hasKey first) then failAhead .expectedValue
  if (← quotedText) != name then fail .expectedWord
  colon

/-- A line of the table. -/
def entry : Reader (String × Option Concrete) := do
  if (← peekSolid) != some '\x7b' then failAhead .expectedValue
  eat
  key true "text"
  let text ← quotedText
  key false "cst"
  let tree := Concrete.ofRows (← pieces)
  if ← hasKey false then failAhead .expectedObjectEnd
  eat
  if (← peekSolid).isSome then failAhead .trailingText
  return (text, tree)

/-- Reads a table. Empty lines count for nothing. -/
def ofLines (lines : List String) : Except ReadError (List (String × Option Concrete)) :=
  (lines.filter (!·.isEmpty)).mapM (Reader.run entry)

/-- Knows the texts of the table and no other. -/
def toGrammar (table : List (String × Option Concrete)) : Grammar := fun text =>
  (table.lookup text).join

end PhpLint.Concrete.Table
