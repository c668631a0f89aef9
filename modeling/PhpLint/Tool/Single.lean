import PhpLint.Tool.Repair
import PhpLint.Tool.Review
import PhpLint.Tool.Display

/-!
One file at a time, without a run around it: reviewed, fixed or shown.
-/

namespace PhpLint.Single

/-- Prints the report of a file and answers the number of findings. -/
def review (grammar : Grammar) (options : Options) (format : OutputFormat) (path : Path) :
    Action Nat := do
  let report ← Console.demand
    (Report.ofFile grammar (← get).files (Analysis.new options) path)
  match format with
  | .json => Console.say report.toJson.text
  | .text =>
    report.warningLines.forM Console.warn
    report.findingLines.forM Console.say
  return report.findings.length

/-- Fixes a file, which is written back or printed. -/
def fix (grammar : Grammar) (options : Options) (inPlace : Bool) (path : Path) :
    Action (List AppliedFix) := do
  let (source, fixed, applied) ← Console.demand
    (Repair.fixedFile grammar options (← get).files path)
  if !inPlace then Console.write fixed
  else if fixed ≠ source then Console.saveText path fixed
  return applied

/-- Prints the tree of a file and answers the number of syntax errors. -/
def display (grammar : Grammar) (path : Path) : Action Nat := do
  let source ← Console.demand (readSource (← get).files path)
  match Parse.file grammar source with
  | .error fault => throw (unscannable fault)
  | .ok parse =>
    Console.write parse.tree.dump
    (Parse.describeErrors source parse.errors).forM fun e =>
      Console.warn (path.text ++ ": syntax error at " ++ e)
    return parse.errors.length

end PhpLint.Single
