import PhpLint.Equivalence
import PhpLint.Rule.Basic

/-!
Arrays merged inside a loop: `$all = array_merge($all, $chunk)` copies what was collected in every
round.
-/

namespace PhpLint.LoopAccumulation

def id : String := "slow-array-operations-in-loop"

def greedyFunctions : List String :=
  ["array_merge", "array_merge_recursive", "array_replace", "array_replace_recursive"]

/-- What the call is used by: the node around it, or around its argument list. -/
def user? (t : Tree) (call : NodeId) : Option NodeId :=
  (t.parent? call).bind fun p => if t.kind p = .argList then t.parent? p else some p

/-- A whole statement of a block, which does not end in `break` or `return`. -/
def isRepeatedStatement (t : Tree) (node : NodeId) : Bool :=
  (t.kind node == .assignExpr || t.kind node == .methodCallExpr)
    && ((t.parent? node).filter (t.kind · == .exprStmt)).any fun statement =>
      ((t.parent? statement).filter (t.kind · == .block)).any fun block =>
        !((t.node block).statements.getLast?.any fun last =>
          last.kind == .breakStmt || last.kind == .returnStmt)

def isInsideLoop (t : Tree) (node : NodeId) : Bool :=
  (t.localAncestors node).any fun a => (t.kind a).isLoop

/-- The assigned variable is among the arguments. -/
def isSelfAccumulation (t : Tree) (assignment call : NodeId) : Bool :=
  (t.node assignment).target?.any fun target =>
    (t.node call).arguments.any fun argument => t.equivalent target.id argument.id

def flags (t : Tree) (call : NodeId) : Bool :=
  (t.node call).isCallTo greedyFunctions && (user? t call).any fun user =>
    isRepeatedStatement t user && isInsideLoop t user && t.kind user == .assignExpr
      && isSelfAccumulation t user call

def message (name : String) : String :=
  "'" ++ name ++ "(...)' is used in a loop and is a resources greedy construction."

def rule : Rule where
  id := id
  interests := [.callExpr]
  check ctx call :=
    if flags ctx.tree call then
      let name := (ctx.tree.node call).calleeName?.getD ""
      [Finding.anchored ctx.tree id call (message name) .warning]
    else []

end PhpLint.LoopAccumulation
