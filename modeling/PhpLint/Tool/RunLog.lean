import PhpLint.Tool.Console

/-!
The log of a run: a copy of what the run printed, and of some lines that it did not print. A log
that cannot be made does not stop the run.
-/

namespace PhpLint

structure RunLog where
  tool : String
  /-- Where the log is kept, if it is. -/
  path : Option Path
  lines : Nat
  deriving DecidableEq, Inhabited, Repr

/-- Actions that write to a log. -/
abbrev Logged := StateT RunLog Action

namespace RunLog

def without (tool : String) : RunLog := ⟨tool, none, 0⟩

def giveUp (tool : String) (path : Path) (what : String) (fault : FileFault) : Action RunLog := do
  let reason := (Failure.of fault.message).during ("cannot create log " ++ what ++ " " ++ path.text)
  Console.warn (reason.brief ++ "; continuing without a log file")
  return without tool

/-- A new log, named for the tool and the time. -/
def create (folder : Path) (tool : String) : Action RunLog := do
  let clock := (← get).clock
  let day := (folder.child tool).child clock.date
  match (← Console.tryChange (·.makeFolders day)) with
  | some fault => giveUp tool day "directory" fault
  | none =>
    let path := day.child ("run-" ++ clock.time ++ ".log")
    match (← Console.tryChange (·.write path .empty)) with
    | some fault => giveUp tool path "file" fault
    | none => return ⟨tool, some path, 0⟩

/-- A line for the log alone. -/
def note (line : String) : Logged Unit := do
  let log ← get
  match log.path with
  | none => return ()
  | some path =>
    let _ ← Console.tryChange (·.append path (line ++ "\n").toUTF8)
    set { log with lines := log.lines + 1 }

/-- A line that is printed as well. -/
def say (line : String) : Logged Unit := do
  Console.say line
  note line

/-- A warning on the error stream that the log keeps too. -/
def warn (message : String) : Logged Unit := do
  Console.warn message
  note ("Warning: " ++ message)

/-- Ends a log with the summary and the times. -/
def finish (summary : String) : Logged Unit := do
  let clock := (← getThe Console).clock
  note ""
  note ("=== " ++ (← getThe RunLog).tool ++ " ===")
  note summary
  note ("Started: " ++ clock.started)
  note ("Ended: " ++ clock.ended)
  note ("Duration: " ++ clock.milliseconds ++ "ms")
  let log ← getThe RunLog
  match log.path with
  | none => return ()
  | some path => say ("Log saved to: " ++ path.text ++ " (" ++ toString log.lines ++ " lines)")

/-- Runs a tool from a base folder. The body's answer is the summary. -/
def runTool (tool : String) (base : Path) (kept : Bool) (body : Logged String) : Action Unit := do
  Console.say ("Entering directory '" ++ base.text ++ "'")
  Console.say ""
  let log ← if kept then create (.ofText "logs") tool else pure (without tool)
  let whole : Logged Unit := do
    let summary ← body
    say ""
    say summary
    say ("Completed in " ++ (← getThe Console).clock.milliseconds ++ "ms")
    if kept then finish summary
  let _ ← whole.run log

end RunLog

end PhpLint
