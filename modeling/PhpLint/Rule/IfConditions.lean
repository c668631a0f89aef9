import PhpLint.Condition.Repeated
import PhpLint.Condition.Terms
import PhpLint.Equivalence
import PhpLint.Rule.Basic

/-!
Questionable conditions of `if` and `elseif`. The terms of each branch are checked for their order
by cost, for confusing operators, repeated calls, tests that can be merged and type tests that do
not fit together; then the terms of all branches are compared with each other and with those of
the statements around.
-/

namespace PhpLint.IfConditions

def id : String := "not-optimal-if-conditions"

def messageOrdering : String := "This condition execution costs less than the previous one."

def messageWrap : String := "Confusing conditions structure: please wrap needed with '(...)'."

def messageDuplicateCall : String := "This call is duplicated in conditions set."

def messageIssetAnd : String := "This can be merged into the previous 'isset(..., ...[, ...])'."

def messageIssetOr : String := "This can be merged into the previous '!isset(..., ...[, ...])'."

def messageAmbiguous : String := "This condition is ambiguous and can be safely removed."

def messageComplementary : String :=
  "Probable bug: ensure this behaves properly with 'instanceof(...)' in this scenario."

def messageDuplicateCondition : String :=
  "This condition is duplicated in another if/elseif branch."

def messageNullComparison : String :=
  "This null comparison is redundant: 'isset(...)' already checks it."

def messageUseAnd : String := "'&&' should be used instead."

def messageUseOr : String := "'||' should be used instead."

def report (t : Tree) (message : String) (severity : Severity) (n : Node) : Finding :=
  Finding.anchored t id n.id message severity

def same (t : Tree) (a b : Node) : Bool := t.equivalent a.id b.id

/-! Checks of one branch. -/

/-- A term that costs less than the one before it, and could stand before it. -/
def isMisplaced (ctx : RuleContext) (earlier later : Node) : Bool :=
  Cost.cost ctx.cheap later < Cost.cost ctx.cheap earlier && !ctx.coupling earlier later

def ordering (ctx : RuleContext) (terms : List Node) : List Finding :=
  ((terms.zip terms.tail).filter fun pair => isMisplaced ctx pair.1 pair.2).map fun pair =>
    report ctx.tree messageOrdering .weakWarning pair.2

def isConfusing (t : Tree) (term : Node) : Bool :=
  term.kind == .binaryExpr
    && (term.operatorKind? == some .amp2 || term.operatorKind? == some .pipe2)
    && !(t.parent? term.id).any (t.kind · == .parenExpr)

def missingParentheses (t : Tree) (terms : List Node) : List Finding :=
  (terms.filter (isConfusing t)).map (report t messageWrap .error)

/-- The calls that are operands of the terms. -/
def operandCalls (terms : List Node) : List Node :=
  ((terms.filter (·.kind == .binaryExpr)).flatMap fun term =>
    term.left?.toList ++ term.right?.toList).filter (·.kind.isCall)

def duplicatedCalls (t : Tree) (terms : List Node) : List Finding :=
  if terms.length < 2 then []
  else (repeated (same t) (operandCalls terms)).map (report t messageDuplicateCall .warning)

/-- The `isset` under a negation. -/
def negatedIsset? (term : Node) : Option Node :=
  if term.kind = .unaryExpr ∧ term.operatorKind? = some .bang then
    (term.operand?.map Node.unparenthesized).filter (·.kind == .issetExpr)
  else none

def multipleIsset (t : Tree) (ts : Terms) : List Finding :=
  if ts.isConjunction then
    ((ts.terms.filter (·.kind == .issetExpr)).drop 1).map (report t messageIssetAnd .warning)
  else if ts.isDisjunction then
    ((ts.terms.filterMap negatedIsset?).drop 1).map (report t messageIssetOr .warning)
  else []

def isInstanceof (term : Node) : Bool :=
  term.kind == .binaryExpr && term.operatorKind? == some .instanceofKw

/-- The operands of an equality test. -/
def equalityOperands? (term : Node) : Option (Node × Node) :=
  if term.kind = .binaryExpr ∧ term.operatorKind?.any Kind.isEqualityOp then
    match term.left?, term.right? with
    | some left, some right => some (left, right)
    | _, _ => none
  else none

/-- Equality tests of what the first type test of the conjunction is about. -/
def complementarity (t : Tree) (ts : Terms) : List Finding :=
  if ts.isConjunction && 2 ≤ ts.terms.length then
    match (ts.terms.find? isInstanceof).bind Node.left? with
    | none => []
    | some subject =>
      (ts.terms.filter fun term => (equalityOperands? term).any fun sides =>
        same t subject sides.1 || same t subject sides.2).map
          (report t messageComplementary .weakWarning)
  else []

/-- A type test and the class it names, in normal form. -/
structure TypeTest where
  term : Node
  className : String
  deriving Inhabited, Repr

/-- Type tests that are about equivalent subjects. -/
structure TypeTests where
  subject : Node
  tests : List TypeTest
  deriving Inhabited, Repr

def typeTest? (ctx : RuleContext) (term : Node) : Option (Node × TypeTest) := do
  let subject ← term.left?
  let classRef ← term.right?
  if classRef.kind ≠ .nameRef then none
  else
    let name ← ctx.classes.resolve classRef.text
    return (subject, ⟨term, name⟩)

/-- Adds a test to the first group with an equivalent subject, or to a new group. -/
def addTest (t : Tree) (subject : Node) (test : TypeTest) : List TypeTests → List TypeTests
  | [] => [⟨subject, [test]⟩]
  | g :: gs =>
    if same t g.subject subject then { g with tests := g.tests ++ [test] } :: gs
    else g :: addTest t subject test gs

/-- The class of another test of the group is above the class of this one. -/
def isRedundant (ctx : RuleContext) (tests : List TypeTest) (test : TypeTest) : Bool :=
  (ctx.classes.ancestors test.className).any fun above =>
    tests.any fun other => other.term.id != test.term.id && above.contains other.className

def ambiguousInstanceof (ctx : RuleContext) (terms : List Node) : List Finding :=
  let tests := terms.filter isInstanceof
  if tests.length < 2 then []
  else
    let groups := (tests.filterMap (typeTest? ctx)).foldl
      (fun groups test => addTest ctx.tree test.1 test.2 groups) []
    groups.flatMap fun g =>
      if g.tests.length ≤ 1 then []
      else (g.tests.filter (isRedundant ctx g.tests)).map fun test =>
        report ctx.tree messageAmbiguous .weakWarning test.term

/-- What an equality test compares with null. -/
def comparedWithNull? (term : Node) : Option Node :=
  (equalityOperands? term).bind fun (left, right) =>
    if right.isKeywordLiteral [.nullKw] then some left
    else if left.isKeywordLiteral [.nullKw] then some right
    else none

def issetNullComparison (t : Tree) (terms : List Node) : List Finding :=
  let checked := (terms.filter (·.kind == .issetExpr)).flatMap Node.arguments
  (terms.filter fun term => (comparedWithNull? term).any fun compared =>
    checked.any (same t · compared)).map (report t messageNullComparison .warning)

/-- Operators written `and` and `or`, anywhere in the condition. -/
def literalOperators (t : Tree) (condition : Node) : List Finding :=
  (condition.descendants.filter (·.kind == .binaryExpr)).flatMap fun n =>
    match n.operator? with
    | none => []
    | some op => match op.kind with
      | .andKw => [report t messageUseAnd .warning op]
      | .orKw => [report t messageUseOr .warning op]
      | _ => []

def branchFindings (ctx : RuleContext) (ts : Terms) : List Finding :=
  let t := ctx.tree
  let o := ctx.options
  ordering ctx ts.terms
    ++ (if o.reportMissingParentheses then missingParentheses t ts.terms else [])
    ++ (if o.reportDuplicateConditions then duplicatedCalls t ts.terms else [])
    ++ multipleIsset t ts ++ complementarity t ts ++ ambiguousInstanceof ctx ts.terms
    ++ (if o.reportIssetNullComparison then issetNullComparison t ts.terms else [])

/-! Checks across branches. -/

/-- The conditions of a statement and of its else-ifs. -/
def conditions (ifStmt : Node) : List Node :=
  (ifStmt :: ifStmt.elseIfs).filterMap Node.condition?

/-- The terms of the conditions around a statement, within its function, innermost first. -/
def enclosingTerms (t : Tree) (ifStmt : NodeId) : List Node :=
  ((t.localAncestors ifStmt).filter (t.kind · == .ifStmt)).flatMap fun a =>
    (conditions (t.node a)).flatMap fun c => (Terms.ofCondition c).terms

/-- What a term tests once a negation, or else a comparison with a truth value, is taken off. -/
def bareSubject? (term : Node) : Option Node :=
  let stripped := if term.kind = .unaryExpr ∧ term.operatorKind? = some .bang then
      term.operand?.map Node.unparenthesized
    else some term
  stripped.map fun n =>
    if n.kind = .binaryExpr then
      match n.left?, n.right? with
      | some left, some right =>
        if right.isKeywordLiteral [.trueKw, .falseKw] then left
        else if left.isKeywordLiteral [.trueKw, .falseKw] then right
        else n
      | _, _ => n
    else n

/-- Variables, constants and fields repeat legitimately. -/
def isBareCheck (term : Node) : Bool :=
  match bareSubject? term with
  | none => true
  | some n => match n.kind with
    | .variableExpr | .nameRef | .literal | .propertyFetch | .staticPropertyFetch => true
    | _ => false

/-- Terms that repeat an earlier term of the statement, and terms that repeat one around it: those
around count once, for the first term that they are equivalent to. -/
def duplicatedConditions (t : Tree) : List Node → List Node → List Finding
  | [], _ => []
  | term :: own, around =>
    if isBareCheck term then duplicatedConditions t own around
    else
      (own.filter (same t · term)).map (report t messageDuplicateCondition .warning)
        ++ (around.filter (same t · term)).map
          (fun _ => report t messageDuplicateCondition .warning term)
        ++ duplicatedConditions t (own.filter (!same t · term)) (around.filter (!same t · term))
termination_by own => own.length
decreasing_by
  · simp
  · simp only [List.unattach_filter, List.unattach_attach, List.length_cons]
    exact Nat.lt_succ_of_le (List.length_filter_le ..)

def rule : Rule where
  id := id
  interests := [.ifStmt]
  check ctx ifStmt :=
    let t := ctx.tree
    let split := (conditions (t.node ifStmt)).map fun c => (c, Terms.ofCondition c)
    split.flatMap (fun (c, ts) => branchFindings ctx ts
        ++ (if ctx.options.reportLiteralOperators then literalOperators t c else []))
      ++ (if ctx.options.reportDuplicateConditions then
          duplicatedConditions t (split.flatMap (·.2.terms)) (enclosingTerms t ifStmt)
        else [])

end PhpLint.IfConditions
