import PhpLint.Text.Blank
import PhpLint.Tree.Node

/-!
Parts of statements and declarations, and the statements, functions and classes around a node.
-/

namespace PhpLint.Node

/-- The condition of an `if`, `elseif`, `while` or `do`. -/
def condition? (n : Node) : Option Node :=
  match n.kind with
  | .ifStmt | .elseIfClause | .whileStmt => n.childNodes[0]?
  | .doWhileStmt => n.childNodes[1]?
  | _ => none

def elseIfs (n : Node) : List Node := n.childrenOfKind .elseIfClause

/-- The statements of a block or file, in order. -/
def statements (n : Node) : List Node := n.childNodes.filter (·.kind.isStatement)

def functionBody? (n : Node) : Option Node :=
  if n.kind = .arrowFnExpr then n.childNodes.getLast? else n.firstOfKind? .block

/-- The declared name of a function, class, interface, trait or enumeration. -/
def declaredName? (n : Node) : Option String :=
  (n.firstOfKind? .declaredName).map fun name => Text.trim name.text

def namesIn (n : Node) (list : Kind) : List String :=
  ((n.firstOfKind? list).map fun l =>
    (l.childrenOfKind .nameRef).map fun name => Text.trim name.text).getD []

def extendsNames (n : Node) : List String := n.namesIn .extendsList

def implementsNames (n : Node) : List String := n.namesIn .implementsList

end PhpLint.Node

namespace PhpLint.Tree

/-- The statement right before another in its block, white space and comments skipped. -/
def previousStatement? (t : Tree) (id : NodeId) : Option NodeId :=
  (t.parent? id).bind fun p =>
    (((t.children p).take (t.index id)).reverse.find? (!t.isTrivia ·)).filter (!t.isToken ·)

/-- The closest function, method or closure around a node. -/
def enclosingFunction? (t : Tree) (id : NodeId) : Option NodeId :=
  (t.ancestors id).find? fun a => (t.kind a).isFunctionLike

def enclosingClass? (t : Tree) (id : NodeId) : Option NodeId :=
  (t.ancestors id).find? fun a => (t.kind a).isClassLike

/-- The nodes above a node within its function or file, innermost first. -/
def localAncestors (t : Tree) (id : NodeId) : List NodeId :=
  (t.ancestors id).takeWhile fun a => !(t.kind a).isFunctionLike && t.kind a != .sourceFile

end PhpLint.Tree
