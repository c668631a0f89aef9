/-!
Command lines that consist of options. Letters may be joined (`-cf x`); a value stands in the next
argument, behind `=`, or right behind a letter. A value with an argument to itself is judged when
the next option or the end comes, and so after an unknown argument has been refused.
-/

namespace PhpLint.CommandLine

inductive Arity where
  /-- No value, at most once. -/
  | switch
  /-- A value, at most once. -/
  | single
  /-- A value, any number of times. -/
  | many
  deriving DecidableEq, Inhabited, Repr

/-- An option that may be given. -/
structure Spec where
  name : String
  letter : Option Char
  arity : Arity
  accepts : String → Bool
  deriving Inhabited

inductive UsageError where
  | unknownArgument (argument : String)
  | missingValue (option : String)
  | invalidValue (option value : String)
  | unexpectedValue (option : String)
  | repeatedOption (option : String)
  | missingOption (option : String)
  | helpRequested
  deriving DecidableEq, Inhabited, Repr

def UsageError.message : UsageError → String
  | unknownArgument argument => "unexpected argument '" ++ argument ++ "'"
  | missingValue option => "a value is required for '--" ++ option ++ "'"
  | invalidValue option value => "invalid value '" ++ value ++ "' for '--" ++ option ++ "'"
  | unexpectedValue option => "no value expected for '--" ++ option ++ "'"
  | repeatedOption option => "the option '--" ++ option ++ "' cannot be used multiple times"
  | missingOption option => "the option '--" ++ option ++ "' is required"
  | helpRequested => "help requested"

/-- An option with its value, empty for a switch. -/
structure Given where
  name : String
  value : String
  deriving DecidableEq, Inhabited, Repr

/-- What was read so far. An option still waits to be judged, with its value once that has come. -/
structure Reading where
  given : List Given
  waiting : Option (Spec × Option String)
  deriving Inhabited

namespace Reading

def start : Reading := ⟨[], none⟩

def add (r : Reading) (spec : Spec) (value : String) : Except UsageError Reading :=
  if spec.arity ≠ .many ∧ r.given.any (·.name == spec.name) then .error (.repeatedOption spec.name)
  else if !spec.accepts value then .error (.invalidValue spec.name value)
  else .ok { r with given := r.given ++ [⟨spec.name, value⟩] }

/-- Judges the option that waits. -/
def settle (r : Reading) : Except UsageError Reading :=
  match r.waiting with
  | none => .ok r
  | some (spec, none) => .error (.missingValue spec.name)
  | some (spec, some value) => { r with waiting := none }.add spec value

def expect (r : Reading) (spec : Spec) : Except UsageError Reading := do
  let r ← r.settle
  return { r with waiting := some (spec, none) }

def addNow (r : Reading) (spec : Spec) (value : String) : Except UsageError Reading := do
  (← r.settle).add spec value

def askHelp (r : Reading) : Except UsageError Reading := do
  let _ ← r.settle
  throw .helpRequested

/-- The letters of one argument. What follows a letter that takes a value is that value. -/
def letters (specs : List Spec) (r : Reading) : List Char → Except UsageError Reading
  | [] => .ok r
  | c :: cs => match specs.find? (·.letter == some c) with
    | none => if c == 'h' then r.askHelp else .error (.unknownArgument (.ofList ['-', c]))
    | some spec =>
      if spec.arity = .switch then do (← r.addNow spec "").letters specs cs
      else match cs with
        | [] => r.expect spec
        | '=' :: value => r.addNow spec (.ofList value)
        | value => r.addNow spec (.ofList value)

/-- An option by its name, with what stands behind `=` if there is one. -/
def named (specs : List Spec) (r : Reading) (name : String) (value : Option String) :
    Except UsageError Reading :=
  match specs.find? (·.name == name) with
  | none =>
    if name ≠ "help" then .error (.unknownArgument ("--" ++ name))
    else if value.isSome then .error (.unexpectedValue name)
    else r.askHelp
  | some spec => match spec.arity, value with
    | .switch, none => r.addNow spec ""
    | .switch, some _ => .error (.unexpectedValue name)
    | _, none => r.expect spec
    | _, some value => r.addNow spec value

/-- An argument that begins no option: the value of the option that waits for one. -/
def plain (r : Reading) (argument : String) : Except UsageError Reading :=
  match r.waiting with
  | some (spec, none) => .ok { r with waiting := some (spec, some argument) }
  | _ => .error (.unknownArgument argument)

def argument (specs : List Spec) (r : Reading) (text : String) : Except UsageError Reading :=
  match text.toList with
  | '-' :: '-' :: cs =>
    let value := match cs.dropWhile (· != '=') with
      | [] => none
      | _ :: value => some (String.ofList value)
    r.named specs (.ofList (cs.takeWhile (· != '='))) value
  | '-' :: c :: cs => r.letters specs (c :: cs)
  | _ => r.plain text

def arguments (specs : List Spec) (r : Reading) : List String → Except UsageError Reading
  | [] => r.settle
  | "--" :: rest => match rest with
    | [] => r.settle
    | extra :: _ => .error (.unknownArgument extra)
  | text :: rest => do (← r.argument specs text).arguments specs rest

end Reading

/-- The options that some arguments give, in their order. -/
def read (specs : List Spec) (arguments : List String) : Except UsageError (List Given) :=
  (Reading.start.arguments specs arguments).map (·.given)

def values (given : List Given) (name : String) : List String :=
  (given.filter (·.name == name)).map (·.value)

def value? (given : List Given) (name : String) : Option String := (values given name).head?

def isGiven (given : List Given) (name : String) : Bool := given.any (·.name == name)

end PhpLint.CommandLine
