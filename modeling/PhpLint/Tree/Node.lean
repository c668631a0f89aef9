import PhpLint.Tree.Basic

/-!
A node with all that stands below it: the subtree at a node of a tree, as a value of its own.
Questions that look downwards only are asked of this view.
-/

namespace PhpLint

structure Node where
  id : NodeId
  kind : Kind
  token : Option String
  children : List Node
  deriving Inhabited, Repr

namespace Node

theorem sizeOf_lt_of_mem {n c : Node} (h : c ∈ n.children) : sizeOf c < sizeOf n := by
  have := List.sizeOf_lt_of_mem h
  cases n
  simp only [mk.sizeOf_spec] at *
  omega

def isToken (n : Node) : Bool := n.token.isSome

def isTrivia (n : Node) : Bool := n.kind.isTrivia

def solidChildren (n : Node) : List Node := n.children.filter (!·.isTrivia)

def childNodes (n : Node) : List Node := n.children.filter (!·.isToken)

theorem sizeOf_lt_of_childNodes {n c : Node} (h : c ∈ n.childNodes) : sizeOf c < sizeOf n :=
  sizeOf_lt_of_mem (List.mem_filter.1 h).1

def firstOfKind? (n : Node) (k : Kind) : Option Node := n.children.find? (·.kind == k)

def childrenOfKind (n : Node) (k : Kind) : List Node := n.children.filter (·.kind == k)

/-- A token among the children, of the given kind. -/
def tokenOfKind? (n : Node) (k : Kind) : Option Node :=
  n.children.find? fun c => c.isToken && c.kind == k

mutual

/-- The nodes of a subtree, each before its children. -/
def preorder : Node → List Node
  | ⟨id, kind, token, children⟩ => ⟨id, kind, token, children⟩ :: preorderAll children

def preorderAll : List Node → List Node
  | [] => []
  | n :: ns => preorder n ++ preorderAll ns

end

mutual

/-- The text of a subtree: that of its tokens, in order. -/
def text : Node → String
  | ⟨_, _, token, children⟩ => token.getD "" ++ textAll children

def textAll : List Node → String
  | [] => ""
  | n :: ns => text n ++ textAll ns

end

mutual

/-- Length of the text in bytes. -/
def textLength : Node → Nat
  | ⟨_, _, token, children⟩ => (token.getD "").utf8ByteSize + textLengthAll children

def textLengthAll : List Node → Nat
  | [] => 0
  | n :: ns => textLength n + textLengthAll ns

end

mutual

theorem textLength_eq : (n : Node) → n.textLength = n.text.utf8ByteSize
  | ⟨_, _, token, children⟩ => by
    simp [textLength, text, String.utf8ByteSize_append, textLengthAll_eq children]

theorem textLengthAll_eq : (ns : List Node) → textLengthAll ns = (textAll ns).utf8ByteSize
  | [] => rfl
  | n :: ns => by
    simp [textLengthAll, textAll, String.utf8ByteSize_append, textLength_eq n, textLengthAll_eq ns]

end

def descendants (n : Node) : List Node := n.preorder.filter (!·.isToken)

end Node

namespace Tree

/-- The subtree at a node, cut below `depth` levels. -/
def nodeWithin (t : Tree) : Nat → NodeId → Node
  | 0, id => ⟨id, t.kind id, t.tokenText? id, []⟩
  | depth + 1, id =>
    ⟨id, t.kind id, t.tokenText? id, (t.children id).map (t.nodeWithin depth)⟩

/-- The subtree at a node. No path in a tree is longer than the number of its slots. -/
def node (t : Tree) (id : NodeId) : Node := t.nodeWithin t.size id

def rootNode (t : Tree) : Node := t.node t.root

def textOf (t : Tree) (id : NodeId) : String := (t.node id).text

def textLength (t : Tree) (id : NodeId) : Nat := (t.node id).textLength

def text (t : Tree) : String := t.textOf t.root

end Tree

end PhpLint
