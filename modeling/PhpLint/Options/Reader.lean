import PhpLint.Json.Number
import PhpLint.Options.Basic
import PhpLint.Text.Quoted

/-!
Options as JSON: an object whose unknown members are passed over and whose known ones may stand
once, or a list of the values in order. What is left out keeps its standard value.
-/

namespace PhpLint.Options

open Json Json.Reader

def describeNumber : NumberValue → String
  | .integer negative n => "integer `" ++ (if negative then "-" else "") ++ toString n ++ "`"
  | .fraction negative units =>
    "floating point `" ++ Literal.Binary64.decimalText negative units ++ "`"

/-- Reads a value, or as much of it as shows its type, and names it. -/
def describeNext : Reader String := do
  match (← peekSolid) with
  | none => fail .endInValue
  | some 'n' =>
    word ['n', 'u', 'l', 'l']
    return "null"
  | some 't' =>
    word ['t', 'r', 'u', 'e']
    return "boolean `true`"
  | some 'f' =>
    word ['f', 'a', 'l', 's', 'e']
    return "boolean `false`"
  | some '-' =>
    eat
    return describeNumber (← numberValue true)
  | some '\x22' =>
    eat
    return "string " ++ Text.quoted (← string false)
  | some '[' => return "sequence"
  | some '\x7b' => return "map"
  | some c =>
    if !c.isDigit then failAhead .expectedValue
    return describeNumber (← numberValue false)

/-- Refuses a value of the wrong type. -/
def mismatch {α : Type} (expected : String) : Reader α := do
  let found ← describeNext
  fail (.wrongType found expected)

def bool : Reader Bool := do
  match (← peekSolid) with
  | some 't' =>
    word ['t', 'r', 'u', 'e']
    return true
  | some 'f' =>
    word ['f', 'a', 'l', 's', 'e']
    return false
  | _ => mismatch "a boolean"

def text : Reader String := do
  match (← peekSolid) with
  | some '\x22' =>
    eat
    string false
  | _ => mismatch "a string"

def textsFrom : Nat → List String → Reader (List String)
  | 0, done => return done
  | fuel + 1, done => do
    if ← hasElement done.isEmpty then textsFrom fuel (done ++ [← text]) else return done

def texts : Reader (List String) := do
  match (← peekSolid) with
  | some '[' =>
    eat
    let found ← textsFrom ((← get).rest.length + 1) []
    listEnd
    return found
  | _ => mismatch "a sequence"

/-- The members in order, each with the reader that sets it. -/
def fields : List (String × (Options → Reader Options)) := [
  ("report_literal_operators", fun o => return { o with reportLiteralOperators := ← bool }),
  ("report_duplicate_conditions", fun o => return { o with reportDuplicateConditions := ← bool }),
  ("report_missing_parentheses", fun o => return { o with reportMissingParentheses := ← bool }),
  ("report_isset_null_comparison", fun o => return { o with reportIssetNullComparison := ← bool }),
  ("use_short_array_syntax", fun o => return { o with useShortArraySyntax := ← bool }),
  ("cheap_functions", fun o => return { o with cheapFunctions := ← texts }),
  ("disabled_rules", fun o => return { o with disabledRules := ← texts })]

/-- Refuses a repeated member at the end of what follows its key. -/
def refuseRepeated {α : Type} (name : String) : Reader α := do
  if (← peekSolid) == some '\x7d' then eat
  fail (.duplicateField name)

def membersFrom : Nat → Bool → List String → Options → Reader Options
  | 0, _, _, o => return o
  | fuel + 1, first, seen, o => do
    if ← hasKey first then
      eat
      let name ← string false
      match fields.lookup name with
      | none =>
        colon
        skipValue
        membersFrom fuel false seen o
      | some set =>
        if seen.contains name then refuseRepeated name
        colon
        membersFrom fuel false (name :: seen) (← set o)
    else return o

def elementsFrom : Bool → List (String × (Options → Reader Options)) → Options → Reader Options
  | _, [], o => return o
  | first, field :: rest, o => do
    if ← hasElement first then elementsFrom false rest (← field.2 o) else return o

def value : Reader Options := do
  match (← peekSolid) with
  | some '\x7b' =>
    eat
    let o ← membersFrom ((← get).rest.length + 1) true [] standard
    eat
    return o
  | some '[' =>
    eat
    let o ← elementsFrom true fields standard
    listEnd
    return o
  | _ => mismatch "struct Options"

def document : Reader Options := do
  let o ← value
  if (← peekSolid).isSome then failAhead .trailingText
  return o

def ofJson (json : String) : Except ReadError Options := run document json

end PhpLint.Options
