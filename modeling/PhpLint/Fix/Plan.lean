import PhpLint.Fix.Basic
import PhpLint.ReplaceCall.Merge

/-!
Planning a fix: its handles are checked against the tree as it is now, and every text is worked
out before anything changes.
-/

namespace PhpLint.Fix

def malformedCall : EditError := .malformed "expected a str_replace call with three arguments"

def malformedArray : EditError := .malformed "search argument is no longer an array"

/-- The statement that consists of the assignment of a call. -/
def statementOf? (t : Tree) (call : NodeId) : Option NodeId :=
  (((t.parent? call).filter (t.kind · == .assignExpr)).bind t.parent?).filter
    (t.kind · == .exprStmt)

/-- Deletes the statement of the call and the white space behind it. -/
def dropStatement (t : Tree) (call : NodeId) : List Edit :=
  match statementOf? t call with
  | none => []
  | some statement =>
    ((t.next? statement).filter (t.kind · == .whitespace)).toList.map .delete
      ++ [.delete statement]

def calleeText (n : Node) : String :=
  (n.calleeRef?.map ReplaceCall.Piece.textOf).getD ReplaceCall.functionName

def planMerge (t : Tree) (patch eliminate : NodeId) (shortArrays : Bool) :
    Except EditError (List Edit) :=
  match ReplaceCall.ofCall? (t.node patch), ReplaceCall.ofCall? (t.node eliminate) with
  | some later, some earlier =>
    let text := ReplaceCall.mergedText (calleeText (t.node patch)) earlier later shortArrays
    .ok (.replace patch .expression text :: dropStatement t eliminate)
  | _, _ => .error malformedCall

def planSimplify (t : Tree) (array : NodeId) (replacement : String) :
    Except EditError (List Edit) :=
  if t.kind array = .arrayExpr then .ok [.replace array .expression replacement]
  else .error malformedArray

def planEdits (t : Tree) : Fix → Except EditError (List Edit)
  | mergeCalls patch eliminate shortArrays => planMerge t patch.id eliminate.id shortArrays
  | simplifySearch array replacement => planSimplify t array.id replacement

def plan (t : Tree) (fix : Fix) : Except EditError EditPlan :=
  match fix.handles.find? (!t.isValid ·) with
  | some stale => .error (.invalidated stale.id)
  | none => (planEdits t fix).map fun edits => ⟨fix.name, edits⟩

end PhpLint.Fix
