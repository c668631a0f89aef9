import PhpLint.CommandLine.Basic
import PhpLint.FileSystem.Discovery
import PhpLint.Options.File

/-!
The arguments of an inspection: which sources, with which options, reported how.
-/

namespace PhpLint

inductive OutputFormat where
  | text
  | json
  deriving DecidableEq, Inhabited, Repr

structure Inspection where
  files : List Path
  folders : List Path
  /-- The working folder as a whole. -/
  codebase : Bool
  format : OutputFormat
  optionsFile : Option Path
  shortArrays : Bool
  disabled : List String
  log : Bool
  deriving DecidableEq, Inhabited, Repr

namespace Inspection

open CommandLine

def isPath (value : String) : Bool := !value.isEmpty

def anyValue (_ : String) : Bool := true

def isFormat (value : String) : Bool := value == "text" || value == "json"

def specs : List Spec := [
  ⟨"file", some 'f', .many, isPath⟩, ⟨"dir", some 'd', .many, isPath⟩,
  ⟨"codebase", some 'c', .switch, anyValue⟩, ⟨"format", none, .single, isFormat⟩,
  ⟨"options", none, .single, isPath⟩, ⟨"short-arrays", none, .switch, anyValue⟩,
  ⟨"disable", none, .many, anyValue⟩, ⟨"log", none, .switch, anyValue⟩]

def ofGiven (given : List Given) : Inspection where
  files := (values given "file").map Path.ofText
  folders := (values given "dir").map Path.ofText
  codebase := isGiven given "codebase"
  format := if value? given "format" = some "json" then .json else .text
  optionsFile := (value? given "options").map Path.ofText
  shortArrays := isGiven given "short-arrays"
  disabled := values given "disable"
  log := isGiven given "log"

def ofArguments (arguments : List String) : Except UsageError Inspection :=
  (read specs arguments).map ofGiven

/-- The first thing about the arguments that the file system does not bear out. -/
def refusal? (i : Inspection) (fs : FileSystem) : Option Failure :=
  if i.files.isEmpty && i.folders.isEmpty && !i.codebase then
    some (.of "Must specify -f/--file, -d/--dir or -c/--codebase\nRun with --help for usage")
  else match (i.files ++ i.folders).find? (!fs.has ·) with
    | some path => some (.of ("Path does not exist: " ++ path.text))
    | none => (i.optionsFile.filter (!fs.isFile ·)).map fun path =>
        .of ("Options file does not exist: " ++ path.text)

/-- The folder that reports name sources from: the first one given, or that of the first file. -/
def base (i : Inspection) (fs : FileSystem) : Path :=
  match i.folders with
  | folder :: _ => folder
  | [] =>
    (((i.files.head?).bind Path.parent?).filter fun p => !p.text.isEmpty).getD fs.currentPath

def searchPaths (files folders : List Path) (codebase : Bool) (fs : FileSystem) : List Path :=
  files ++ folders ++ if codebase then [fs.currentPath] else []

def search (i : Inspection) (fs : FileSystem) : List Path :=
  searchPaths i.files i.folders i.codebase fs

/-- The options of the file, if one is given, with what the arguments change. -/
def options (i : Inspection) (fs : FileSystem) : Except OptionsError Options :=
  let loaded := match i.optionsFile with
    | some path => Options.load fs path
    | none => .ok Options.standard
  loaded.map fun o => { o with
    useShortArraySyntax := o.useShortArraySyntax || i.shortArrays
    disabledRules := o.disabledRules ++ i.disabled }

/-- Names the options file in a failure to load it. -/
def optionsFailure (i : Inspection) (e : OptionsError) : Failure :=
  e.toFailure.during ("Failed to load " ++ (i.optionsFile.map Path.text).getD "")

end Inspection

end PhpLint
