import PhpLint.Failure
import PhpLint.FileSystem.Basic

/-!
What a tool acts on: the files, and the two streams that it prints to. Whatever happened before a
failure stays.
-/

namespace PhpLint

/-- The readings of the clock that one run prints, as it prints them. -/
structure Clock where
  date : String
  time : String
  started : String
  ended : String
  milliseconds : String
  deriving DecidableEq, Inhabited, Repr

structure Console where
  files : FileSystem
  clock : Clock
  out : String
  err : String
  deriving Inhabited

abbrev Action := EStateM Failure Console

namespace Console

def start (files : FileSystem) (clock : Clock) : Console := ⟨files, clock, "", ""⟩

def write (text : String) : Action Unit := modify fun c => { c with out := c.out ++ text }

def say (line : String) : Action Unit := write (line ++ "\n")

def complain (line : String) : Action Unit := modify fun c => { c with err := c.err ++ line ++ "\n" }

def warn (message : String) : Action Unit := complain ("Warning: " ++ message)

def demand {α : Type} (result : Except Failure α) : Action α :=
  match result with
  | .ok value => return value
  | .error f => throw f

/-- Changes the files, or leaves them as they are and answers why. -/
def tryChange (change : FileSystem → Except FileFault FileSystem) : Action (Option FileFault) := do
  let c ← get
  match change c.files with
  | .ok files =>
    set { c with files }
    return none
  | .error fault => return some fault

def saveText (path : Path) (text : String) : Action Unit := do
  if let some fault ← tryChange (·.write path text.toUTF8) then
    throw ((Failure.of fault.message).during ("Failed to write " ++ path.text))

/-- Carries an action out. A failure is told on the error stream and makes the exit code 1. -/
def run (c : Console) (action : Action Nat) : Nat × Console :=
  match EStateM.run action c with
  | .ok code c => (code, c)
  | .error f c => (1, { c with err := c.err ++ "Error: " ++ f.full ++ "\n" })

end Console

end PhpLint
