import PhpLint.Tree.Basic

/-!
The links of a tree fit together: below the root every child names its parent and its place, and
stands under one parent once. `defect?` is the first violation in walk order.
-/

namespace PhpLint.Tree

inductive Defect where
  | rootHasParent
  | detached (id : NodeId)
  | wrongParent (child : NodeId)
  | staleIndex (child : NodeId)
  | registeredTwice (child parent : NodeId)
  | tokenHasChildren (id : NodeId)
  deriving DecidableEq, Inhabited, Repr

def Defect.message : Defect → String
  | rootHasParent => "root has a parent"
  | detached id => NodeId.render id ++ " reachable from root but detached"
  | wrongParent child => NodeId.render child ++ " has wrong parent"
  | staleIndex child => NodeId.render child ++ " has stale sibling index"
  | registeredTwice child parent =>
    NodeId.render child ++ " registered twice under " ++ NodeId.render parent
  | tokenHasChildren id => "token " ++ NodeId.render id ++ " has children"

def childDefect? (t : Tree) (parent child : NodeId) (place : Nat) : Option Defect :=
  if t.parent? child ≠ some parent then some (.wrongParent child)
  else if t.index child ≠ place then some (.staleIndex child)
  else if (t.children parent).count child ≠ 1 then some (.registeredTwice child parent)
  else none

def nodeDefect? (t : Tree) (id : NodeId) : Option Defect :=
  if !t.isAttached id then some (.detached id)
  else ((t.children id).zipIdx.findSome? fun c => t.childDefect? id c.1 c.2).or
    (if t.isToken id && !(t.children id).isEmpty then some (.tokenHasChildren id) else none)

def defect? (t : Tree) : Option Defect :=
  if (t.parent? t.root).isSome then some .rootHasParent
  else (t.preorder t.root).findSome? t.nodeDefect?

end PhpLint.Tree
