import PhpLint.Coupling
import PhpLint.Fix.Basic
import PhpLint.Hierarchy.Basic
import PhpLint.Options.Basic
import PhpLint.Tree.Position

/-!
Findings and the rules that make them. A rule names the kinds of nodes it looks at and answers the
findings at one node; a node that is not of the expected shape has none.
-/

namespace PhpLint

inductive Severity where
  | error
  | warning
  | weakWarning
  | unused
  deriving DecidableEq, Inhabited, Repr

/-- The severity as people read it. -/
def Severity.label : Severity → String
  | error => "error"
  | warning => "warning"
  | weakWarning => "weak warning"
  | unused => "unused"

/-- The severity as programs read it. -/
def Severity.tag : Severity → String
  | error => "error"
  | warning => "warning"
  | weakWarning => "weak_warning"
  | unused => "unused"

structure Finding where
  rule : String
  anchor : Handle
  message : String
  severity : Severity
  location : Tree.Location
  fix : Option Fix
  deriving DecidableEq, Inhabited, Repr

namespace Finding

def anchored (t : Tree) (rule : String) (anchor : NodeId) (message : String) (severity : Severity) :
    Finding :=
  ⟨rule, t.handle anchor, message, severity, t.location anchor, none⟩

def withFix (f : Finding) (fix : Fix) : Finding := { f with fix := some fix }

/-- `line:column: severity: message [rule]` -/
def line (f : Finding) : String :=
  toString f.location.line ++ ":" ++ toString f.location.column ++ ": " ++ f.severity.label ++ ": "
    ++ f.message ++ " [" ++ f.rule ++ "]"

def toJson (f : Finding) : Json.Value :=
  .object [
    ("rule", .string f.rule), ("message", .string f.message), ("severity", .string f.severity.tag),
    ("location", .object [("line", .number f.location.line), ("column", .number f.location.column)]),
    ("fix", match f.fix with
      | some fix => .string fix.name
      | none => .null)]

end Finding

/-- What a rule may consult. `cheap` names the functions that cost nothing. -/
structure RuleContext where
  tree : Tree
  options : Options
  classes : ClassLookup
  coupling : Coupling
  cheap : List String
  deriving Inhabited

structure Rule where
  /-- The name in reports and options. -/
  id : String
  interests : List Kind
  check : RuleContext → NodeId → List Finding
  deriving Inhabited

end PhpLint
