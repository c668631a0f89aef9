import PhpLint.Analysis
import PhpLint.Failure
import PhpLint.FileSystem.Basic
import PhpLint.Parse.Basic

/-!
What is reported about one file: the findings, and the syntax errors, which do not stop the rules.
-/

namespace PhpLint

structure Report where
  file : String
  findings : List Finding
  syntaxErrors : List String
  deriving DecidableEq, Inhabited, Repr

/-- The text of a source file. -/
def readSource (fs : FileSystem) (path : Path) : Except Failure String :=
  (fs.readText path).mapError fun fault =>
    (Failure.of fault.message).during ("Failed to read " ++ path.text)

def unscannable (fault : Token.Fault) : Failure := .of fault.message

namespace Report

def ofSource (grammar : Grammar) (a : Analysis) (file source : String) : Except Failure Report :=
  match Parse.file grammar source with
  | .error fault => .error (unscannable fault)
  | .ok parse =>
    .ok ⟨file, a.findings parse.tree (Hierarchy.ofTree parse.tree).lookup,
      Parse.describeErrors source parse.errors⟩

def ofFile (grammar : Grammar) (fs : FileSystem) (a : Analysis) (path : Path) :
    Except Failure Report := do
  ofSource grammar a path.text (← readSource fs path)

def findingLines (r : Report) : List String := r.findings.map fun f => r.file ++ ":" ++ f.line

def warningLines (r : Report) : List String :=
  r.syntaxErrors.map fun e => r.file ++ ": syntax error at " ++ e

/-- The report as JSON. A file without syntax errors has no list of them. -/
def toJson (r : Report) : Json.Value :=
  .object ([("file", .string r.file), ("matches", .array (r.findings.map Finding.toJson))]
    ++ if r.syntaxErrors.isEmpty then []
       else [("syntax_errors", .array (r.syntaxErrors.map .string))])

end Report

end PhpLint
