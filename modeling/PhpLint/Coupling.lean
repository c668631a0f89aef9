import PhpLint.Tree.Expression

/-!
Whether a term of a condition must stay behind an earlier one although it is cheaper.
-/

namespace PhpLint

/-- Decides, for an earlier and a later term, whether their order matters. -/
abbrev Coupling := Node → Node → Bool

namespace Coupling

def isWrite (n : Node) : Bool :=
  match n.kind with
  | .assignExpr | .postfixExpr => true
  | .unaryExpr => n.solidChildren.head?.any fun op => op.kind == .plus2 || op.kind == .minus2
  | _ => false

def hasSideEffect (n : Node) : Bool := n.descendants.any isWrite

/-- Names of the variables read in a subtree, `$this` aside. -/
def readVariables (n : Node) : List String :=
  (n.preorder.filterMap Node.variableName?).filter (· != "this")

/-- The property reads of a subtree, as their text without white space. -/
def propertyReads (n : Node) : List String :=
  (n.preorder.filter (·.kind == .propertyFetch)).map fun p => Text.squeeze p.text

/-- Terms are coupled when the earlier one writes anything, or when both read a variable or a
property in common. -/
def shared : Coupling := fun earlier later =>
  hasSideEffect earlier
    || (readVariables later).any (readVariables earlier).contains
    || (propertyReads later).any (propertyReads earlier).contains

def constant (answer : Bool) : Coupling := fun _ _ => answer

end Coupling

end PhpLint
