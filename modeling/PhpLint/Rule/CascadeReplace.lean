import PhpLint.Equivalence
import PhpLint.ReplaceCall.Basic
import PhpLint.Rule.Basic

/-!
Replacements in a row: a `str_replace` whose subject is the result of another one can do the work
of both.
-/

namespace PhpLint.CascadeReplace

def id : String := "cascade-string-replacement"

def messageCascading : String := "This str_replace(...) call can be merged with the previous."

def messageNesting : String := "This str_replace(...) call can be merged with its parent."

def messageSearch : String := "Can be replaced with the string from the array."

/-- The statement that a `return` is, or that consists of an assignment. -/
def statement? (t : Tree) (node : NodeId) : Option NodeId :=
  if t.kind node = .returnStmt then some node
  else (t.parent? node).filter (t.kind · == .exprStmt)

/-- The assignment that the statement before is. -/
def previousAssignment? (t : Tree) (node : NodeId) : Option Node :=
  (statement? t node).bind fun statement =>
    ((t.previousStatement? statement).filter (t.kind · == .exprStmt)).bind fun previous =>
      (t.node previous).childNodes.head?.filter (·.kind == .assignExpr)

/-- The call of the previous statement, where it hands its result over in a variable that this node
assigns to or returns. -/
def cascadedCall? (t : Tree) (node : NodeId) (subject : Node) : Option Node := do
  let previous ← previousAssignment? t node
  let call ← ReplaceCall.valueOf? previous
  let transition ← previous.target?
  let name ← transition.variableName?
  let subjectName ← subject.variableName?
  if subjectName ≠ name then none
  else
    let storage ← if t.kind node = .assignExpr then (t.node node).target? else some subject
    if t.equivalent transition.id storage.id then some call else none

def mergeFix (ctx : RuleContext) (patch eliminate : NodeId) : Fix :=
  .mergeCalls (ctx.tree.handle patch) (ctx.tree.handle eliminate) ctx.options.useShortArraySyntax

def findings (ctx : RuleContext) (node : NodeId) (call : Node) (parts : ReplaceCall) :
    List Finding :=
  let t := ctx.tree
  let cascading := (cascadedCall? t node parts.subject).toList.map fun previous =>
    (Finding.anchored t id call.id messageCascading .warning).withFix (mergeFix ctx call.id previous.id)
  let nesting := if ReplaceCall.isReplaceCall parts.subject then
      [(Finding.anchored t id parts.subject.id messageNesting .warning).withFix
        (mergeFix ctx call.id parts.subject.id)]
    else []
  let search := (ReplaceCall.repeatedLiteral? parts.search).toList.map fun literal =>
    (Finding.anchored t id parts.search.id messageSearch .weakWarning).withFix
      (.simplifySearch (t.handle parts.search.id) literal)
  cascading ++ nesting ++ search

def rule : Rule where
  id := id
  interests := [.assignExpr, .returnStmt]
  check ctx node :=
    match ReplaceCall.valueOf? (ctx.tree.node node) with
    | none => []
    | some call => match ReplaceCall.ofCall? call with
      | some parts => findings ctx node call parts
      | none => []

end PhpLint.CascadeReplace
