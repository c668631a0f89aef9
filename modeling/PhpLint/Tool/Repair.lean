import PhpLint.CommandLine.Inspection
import PhpLint.Fix.Apply
import PhpLint.Report
import PhpLint.Text.Grouped
import PhpLint.Tool.RunLog

/-!
Fixing sources: the fixed files are printed, or written back, or the fixes are only listed.
-/

namespace PhpLint.Repair

/-- Reads and fixes a file. The answer has the text before and after. -/
def fixedFile (grammar : Grammar) (options : Options) (fs : FileSystem) (path : Path) :
    Except Failure (String × String × List AppliedFix) := do
  let source ← readSource fs path
  let failed (f : Failure) : Failure := f.during ("Failed to fix " ++ path.text)
  match Parse.fixSource grammar options source with
  | .ok (fixed, applied) => return (source, fixed, applied)
  | .error (.rejected e) => throw (failed (.of e.display))
  | .error (.unscannable fault) => throw (failed (unscannable fault))

def toolName : String := "phpinspect-fix"

structure Request where
  inspection : Inspection
  inPlace : Bool
  dryRun : Bool
  deriving DecidableEq, Inhabited, Repr

namespace Request

open CommandLine

def specs : List Spec := Inspection.specs ++ [
  ⟨"in-place", some 'i', .switch, Inspection.anyValue⟩,
  ⟨"dry-run", some 'n', .switch, Inspection.anyValue⟩]

def ofArguments (arguments : List String) : Except UsageError Request :=
  (read specs arguments).map fun given =>
    ⟨Inspection.ofGiven given, isGiven given "in-place", isGiven given "dry-run"⟩

end Request

/-- A file that fixes change. -/
structure Outcome where
  path : Path
  fixed : String
  applied : List AppliedFix
  deriving DecidableEq, Inhabited, Repr

/-- Fixes files as they are, without writing any. -/
def outcomes (grammar : Grammar) (options : Options) (fs : FileSystem) (paths : List Path) :
    List (Except Failure (Option Outcome)) :=
  paths.map fun path => (fixedFile grammar options fs path).map fun (source, fixed, applied) =>
    if fixed = source then none else some ⟨path, fixed, applied⟩

def deliver (r : Request) (base : Path) (o : Outcome) : Logged Unit := do
  let shown := o.path.shownFrom base
  o.applied.forM fun fix =>
    RunLog.say (shown ++ ": " ++ fix.name ++ " (" ++ toString fix.edits ++ " edits)")
  if r.dryRun then return ()
  if r.inPlace then Console.saveText o.path o.fixed
  else
    RunLog.say ("==> " ++ shown ++ " <==")
    RunLog.say (Text.trimEnd o.fixed)

def deliverResult (r : Request) (base : Path) : Except Failure (Option Outcome) → Logged Unit
  | .error f => Console.warn f.brief
  | .ok none => return ()
  | .ok (some o) => deliver r base o

def summary (r : Request) (files : Nat) (changed : List Outcome) : String :=
  let fixes := (changed.flatMap (·.applied)).length
  "Summary: " ++ Text.grouped files ++ " files checked, " ++ Text.grouped changed.length ++ " files "
    ++ (if r.inPlace && !r.dryRun then "fixed" else "fixable") ++ ", " ++ Text.grouped fixes
    ++ " fixes"

def run (grammar : Grammar) (r : Request) : Action Nat := do
  let fs := (← get).files
  if let some refusal := r.inspection.refusal? fs then throw refusal
  let options ← Console.demand ((r.inspection.options fs).mapError r.inspection.optionsFailure)
  let base := r.inspection.base fs
  let paths := fs.sources (r.inspection.search fs)
  let results := outcomes grammar options fs paths
  let changed := results.filterMap fun result => result.toOption.join
  RunLog.runTool toolName base r.inspection.log do
    results.forM (deliverResult r base)
    return summary r paths.length changed
  return 0

end PhpLint.Repair
