import PhpLint.CommandLine.Inspection
import PhpLint.Report
import PhpLint.Text.Grouped
import PhpLint.Tool.RunLog

/-!
Reviewing sources: every finding on a line of its own, or all reports as JSON. The exit code tells
whether anything was found.
-/

namespace PhpLint.Review

def toolName : String := "phpinspect-review"

structure Checked where
  reports : List Report
  /-- What is said of the files that could not be read. -/
  failures : List String
  deriving Inhabited

def Checked.total (c : Checked) : Nat := (c.reports.flatMap (·.findings)).length

def check (grammar : Grammar) (fs : FileSystem) (a : Analysis) (base : Path) (paths : List Path) :
    Checked :=
  let results := paths.map fun path => (path.shownFrom base, Report.ofFile grammar fs a path)
  ⟨results.filterMap fun r => r.2.toOption.map fun report => { report with file := r.1 },
    results.filterMap fun r => match r.2 with
      | .ok _ => none
      | .error f => some (r.1 ++ ": " ++ f.brief)⟩

def printJson (c : Checked) : Action Unit := do
  c.failures.forM Console.warn
  (c.reports.flatMap Report.warningLines).forM Console.warn
  Console.say (Json.Value.array (c.reports.map Report.toJson)).text

def sayReport (r : Report) : Logged Unit := do
  r.warningLines.forM RunLog.warn
  r.findingLines.forM RunLog.say

def summary (files : Nat) (c : Checked) : String :=
  let withFindings := (c.reports.filter (!·.findings.isEmpty)).length
  "Summary: " ++ Text.grouped files ++ " files checked, " ++ Text.grouped withFindings
    ++ " files with findings, " ++ Text.grouped c.total ++ " total findings"

def sayAll (a : Analysis) (files : Nat) (c : Checked) : Logged String := do
  RunLog.note ("Rules: " ++ ", ".intercalate a.ruleIds)
  c.failures.forM RunLog.warn
  c.reports.forM sayReport
  if c.total = 0 then RunLog.say "✓ No findings"
  return summary files c

/-- Reviews what the arguments select. Answers 1 if anything was found, else 0. -/
def run (grammar : Grammar) (i : Inspection) : Action Nat := do
  let fs := (← get).files
  if let some refusal := i.refusal? fs then throw refusal
  let options ← Console.demand ((i.options fs).mapError i.optionsFailure)
  let a := Analysis.new options
  let paths := fs.sources (i.search fs)
  let base := i.base fs
  let checked := check grammar fs a base paths
  match i.format with
  | .json => printJson checked
  | .text => RunLog.runTool toolName base i.log (sayAll a paths.length checked)
  return if checked.total = 0 then 0 else 1

end PhpLint.Review
