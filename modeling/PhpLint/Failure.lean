/-!
Failures that are told to people: what failed, and behind it the reasons, each the cause of the one
before.
-/

namespace PhpLint

structure Failure where
  reason : String
  causes : List String
  deriving DecidableEq, Inhabited, Repr

namespace Failure

def of (reason : String) : Failure := ⟨reason, []⟩

/-- Names what failed because of this. -/
def during (f : Failure) (reason : String) : Failure := ⟨reason, f.reason :: f.causes⟩

/-- The failure on one line. -/
def brief (f : Failure) : String := ": ".intercalate (f.reason :: f.causes)

def indentLines (indent : String) (cs : List Char) : String :=
  .ofList (cs.flatMap fun c => if c == '\n' then '\n' :: indent.toList else [c])

def blanks (n : Nat) : String := .ofList (List.replicate n ' ')

def numbered (cause : String) (n : Nat) : String :=
  let digits := toString n
  blanks (5 - digits.length) ++ digits ++ ": " ++ indentLines (blanks 7) cause.toList

/-- The failure with a list of its causes, numbered if there are several. -/
def full (f : Failure) : String :=
  match f.causes with
  | [] => f.reason
  | [cause] => f.reason ++ "\n\nCaused by:\n" ++ blanks 4 ++ indentLines (blanks 4) cause.toList
  | causes => f.reason ++ "\n\nCaused by:\n"
    ++ "\n".intercalate (causes.zipIdx.map fun c => numbered c.1 c.2)

end Failure

end PhpLint
