import PhpLint.Concrete.Table
import PhpLint.Tool.Program
import Std.Time

/-!
The command line: the name of a program, then its arguments. Standard input lists the files that
there are, one path a line; the file `phplint.trees` holds the concrete trees of the texts that the
run parses. All reading comes first and all writing last.
-/

namespace PhpLint.CommandLine

def treesFile : String := "phplint.trees"

/-- The working folder with the listed files. -/
def snapshot (current : List String) (listed : List String) : IO FileSystem := do
  let nothing : FileSystem := ⟨[], [], current⟩
  let files ← listed.filterMapM fun path => do
    match nothing.resolveNew (.ofText path) with
    | .ok names => return some (names, ← IO.FS.readBinFile path)
    | .error _ => return none
  return { nothing with files }

def readClock (startedAt : Nat) : IO Clock := do
  let now ← Std.Time.PlainDateTime.now
  let moment := now.format "uuuu-MM-dd HH:mm:ss"
  let elapsed := (← IO.monoMsNow) - startedAt
  return ⟨now.format "uuuu-MM-dd", now.format "HH-mm-ss", moment, moment, toString elapsed⟩

def readGrammar : IO Grammar := do
  let lines ← try IO.FS.lines treesFile catch _ => pure #[]
  match Concrete.Table.ofLines lines.toList with
  | .ok table => return Concrete.Table.toGrammar table
  | .error e => throw (IO.userError (treesFile ++ ": " ++ e.message))

def save (names : List String) (bytes : ByteArray) : IO Unit := do
  IO.FS.createDirAll (Path.text ⟨"" :: names.dropLast⟩)
  IO.FS.writeBinFile (Path.text ⟨"" :: names⟩) bytes

def perform (files : FileSystem) (clock : Clock) (action : Action Nat) : IO Nat := do
  let (code, done) := (Console.start files clock).run action
  IO.print done.out
  IO.eprint done.err
  for (names, bytes) in files.changed done.files do save names bytes
  return code

def start (program : Program) (arguments : List String) : IO Nat := do
  let startedAt ← IO.monoMsNow
  match program.command (← readGrammar) arguments with
  | .error e =>
    IO.eprintln ("error: " ++ e.message)
    return program.usageCode e
  | .ok action =>
    let here := Path.ofText (toString (← IO.FS.realPath "."))
    let current := here.pieces.filter (!·.isEmpty)
    let listed := (← (← IO.getStdin).lines).toList.filter (!·.isEmpty)
    perform (← snapshot current listed) (← readClock startedAt) action

end PhpLint.CommandLine

def main (arguments : List String) : IO UInt32 := do
  match arguments with
  | name :: rest => match PhpLint.Program.ofName? name with
    | some program => return (← PhpLint.CommandLine.start program rest).toUInt32
    | none =>
      IO.eprintln ("unknown program: " ++ name)
      return 2
  | [] =>
    IO.eprintln "expected the name of a program"
    return 2
