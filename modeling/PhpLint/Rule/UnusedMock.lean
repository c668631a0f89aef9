import PhpLint.Rule.Basic
import PhpLint.Tree.Expression

/-!
Mocks that a test creates and never uses. Setting expectations on a mock is no use of it.
-/

namespace PhpLint.UnusedMock

def id : String := "unused-mock"

def message : String := "The mock seems to be not used, consider deleting it."

def factories : List String := ["createMock", "getMock"]

/-- Inside a class that is named or derived as a test, or in a test method. -/
def isTestContext (t : Tree) (node : NodeId) : Bool :=
  ((t.enclosingClass? node).any fun c =>
      (t.node c).declaredName?.any (·.endsWith "Test")
        || (t.node c).extendsNames.any (·.endsWith "TestCase"))
    || ((t.enclosingFunction? node).filter (t.kind · == .methodDecl)).any fun m =>
      (t.node m).declaredName?.any (·.startsWith "test")

/-- Every mention of a variable counts but that as the object of `->expects(...)`. -/
def isRealUse (t : Tree) (reference : NodeId) : Bool :=
  match t.parent? reference with
  | none => true
  | some p =>
    let call := t.node p
    !(call.kind == .methodCallExpr && call.receiver?.any (·.id == reference)
      && call.calleeName? == some "expects")

/-- The variable that a call assigns a new mock to, as a statement of its own. -/
def container? (t : Tree) (call : NodeId) : Option Node :=
  ((t.parent? call).filter (t.kind · == .assignExpr)).bind fun assignment =>
    if (t.parent? assignment).any (t.kind · == .exprStmt) then
      (t.node assignment).target?.filter (·.kind == .variableExpr)
    else none

def body? (t : Tree) (call : NodeId) : Option Node :=
  ((t.enclosingFunction? call).bind fun f => (t.node f).functionBody?).filter (·.kind == .block)

def isUsed (t : Tree) (body container : Node) (name : String) : Bool :=
  (body.variableReferences name).any fun v => v.id != container.id && isRealUse t v.id

def rule : Rule where
  id := id
  interests := [.methodCallExpr]
  check ctx call :=
    let t := ctx.tree
    if (t.node call).calleeName?.any factories.contains && isTestContext t call then
      match container? t call, body? t call with
      | some container, some body => match container.variableName? with
        | some name =>
          if isUsed t body container name then []
          else [Finding.anchored t id container.id message .unused]
        | none => []
      | _, _ => []
    else []

end PhpLint.UnusedMock
