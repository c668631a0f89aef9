import PhpLint.Cost
import PhpLint.Json.Value

/-!
Inspection options: what the rules report, how fixes write arrays, and which rules run at all.
-/

namespace PhpLint

structure Options where
  /-- Report `and` and `or` in conditions. -/
  reportLiteralOperators : Bool
  /-- Report calls and conditions that occur twice. -/
  reportDuplicateConditions : Bool
  /-- Report `&&` and `||` mixed without parentheses. -/
  reportMissingParentheses : Bool
  /-- Report comparisons with null that `isset` makes already. -/
  reportIssetNullComparison : Bool
  /-- Write arrays as `[...]` and not as `array(...)`. -/
  useShortArraySyntax : Bool
  /-- Functions that count as cheap besides the built-in ones. -/
  cheapFunctions : List String
  /-- Rules that do not run. -/
  disabledRules : List String
  deriving DecidableEq, Repr

namespace Options

def standard : Options := ⟨true, true, true, true, false, [], []⟩

instance : Inhabited Options := ⟨standard⟩

def isEnabled (o : Options) (rule : String) : Bool := !o.disabledRules.contains rule

/-- Names of all cheap functions, in lower case and without leading separator. -/
def cheapNames (o : Options) : List String :=
  Cost.builtinCheap ++ o.cheapFunctions.map fun name => (ClassName.dropSeparators name).toLower

def toJson (o : Options) : Json.Value :=
  .object [
    ("report_literal_operators", .bool o.reportLiteralOperators),
    ("report_duplicate_conditions", .bool o.reportDuplicateConditions),
    ("report_missing_parentheses", .bool o.reportMissingParentheses),
    ("report_isset_null_comparison", .bool o.reportIssetNullComparison),
    ("use_short_array_syntax", .bool o.useShortArraySyntax),
    ("cheap_functions", .array (o.cheapFunctions.map .string)),
    ("disabled_rules", .array (o.disabledRules.map .string))]

end Options

end PhpLint
