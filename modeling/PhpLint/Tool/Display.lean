import PhpLint.CommandLine.Basic
import PhpLint.Report
import PhpLint.Text.Blank
import PhpLint.Tool.RunLog
import PhpLint.Tree.Dump
import PhpLint.Tree.Integrity

/-!
Showing the tree of a source, or its text as the tree has it.
-/

namespace PhpLint.Display

open CommandLine

def toolName : String := "phpinspect-parse"

structure Request where
  path : Path
  format : String
  deriving DecidableEq, Inhabited, Repr

def specs : List Spec := [
  ⟨"path", some 'p', .single, fun value => !value.isEmpty⟩,
  ⟨"format", some 'f', .single, fun _ => true⟩]

def Request.ofArguments (arguments : List String) : Except UsageError Request := do
  let given ← read specs arguments
  match value? given "path" with
  | some path => return ⟨.ofText path, (value? given "format").getD "tree"⟩
  | none => throw (.missingOption "path")

/-- A copy of what is shown goes here if its folder exists. -/
def copyPath : Path := .ofText "analyses/phpinspect-parse.log"

def sayCopied (text : String) : Action Unit := do
  Console.say text
  let _ ← Console.tryChange (·.append copyPath (text ++ "\n").toUTF8)

def body (grammar : Grammar) (r : Request) : Action String := do
  let source ← Console.demand (readSource (← get).files r.path)
  match Parse.file grammar source with
  | .error fault => throw (unscannable fault)
  | .ok parse =>
    match r.format with
    | "tree" => sayCopied (Text.trimEnd parse.tree.dump)
    | "text" => sayCopied parse.tree.text
    | other => throw (.of ("Unknown format: " ++ other ++ " (expected tree or text)"))
    (Parse.describeErrors source parse.errors).forM fun e => Console.warn ("syntax error at " ++ e)
    if let some defect := parse.tree.defect? then throw (.of defect.message)
    return "Parsed " ++ r.path.text ++ " (" ++ toString parse.tree.size ++ " nodes, "
      ++ toString parse.errors.length ++ " syntax errors)"

def run (grammar : Grammar) (r : Request) : Action Nat := do
  RunLog.runTool toolName ((r.path.parent?).getD (.ofText ".")) false (body grammar r)
  return 0

end PhpLint.Display
