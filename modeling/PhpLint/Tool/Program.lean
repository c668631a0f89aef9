import PhpLint.Tool.Repair
import PhpLint.Tool.Review
import PhpLint.Tool.Display

/-!
The programs by name, and what becomes of their arguments.
-/

namespace PhpLint

inductive Program where
  | review
  | repair
  | display
  deriving DecidableEq, Inhabited, Repr

namespace Program

open CommandLine

def ofName? (name : String) : Option Program :=
  if name = Review.toolName then some review
  else if name = Repair.toolName then some repair
  else if name = Display.toolName then some display
  else none

/-- What the arguments ask for. -/
def command (p : Program) (grammar : Grammar) (arguments : List String) :
    Except UsageError (Action Nat) :=
  match p with
  | review => (Inspection.ofArguments arguments).map (Review.run grammar)
  | repair => (Repair.Request.ofArguments arguments).map (Repair.run grammar)
  | display => (Display.Request.ofArguments arguments).map (Display.run grammar)

/-- The exit code for arguments that cannot be used. -/
def usageCode (p : Program) (e : UsageError) : Nat :=
  match p, e with
  | review, _ => 1
  | _, .helpRequested => 0
  | _, _ => 2

end Program

end PhpLint
