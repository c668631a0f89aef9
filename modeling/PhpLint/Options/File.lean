import PhpLint.Failure
import PhpLint.FileSystem.Basic
import PhpLint.Options.Reader

/-!
Options kept in a file.
-/

namespace PhpLint

/-- Why options could not be loaded from a file. -/
inductive OptionsError where
  | unreadable (path : Path) (fault : FileFault)
  | malformed (error : Json.ReadError)
  deriving DecidableEq, Inhabited, Repr

def OptionsError.message : OptionsError → String
  | unreadable path fault => "cannot read options file " ++ path.text ++ ": " ++ fault.message
  | malformed error => "invalid options: " ++ error.message

def OptionsError.toFailure : OptionsError → Failure
  | unreadable path fault => ⟨message (unreadable path fault), [fault.message]⟩
  | malformed error => ⟨message (malformed error), [error.message]⟩

def Options.load (fs : FileSystem) (path : Path) : Except OptionsError Options :=
  match fs.readText path with
  | .error fault => .error (.unreadable path fault)
  | .ok json => (Options.ofJson json).mapError .malformed

end PhpLint
