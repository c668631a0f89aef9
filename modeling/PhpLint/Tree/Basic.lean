import PhpLint.Kind

/-!
The syntax tree. Nodes live in one array of slots and are named by their position in it, so a
name stays good while the tree changes around it. Parent, children and place among the siblings
are plain fields; text stands in the leaves, white space and comments included.
-/

namespace PhpLint

abbrev NodeId := Nat

def NodeId.render (id : NodeId) : String := "NodeId(" ++ toString id ++ ")"

structure Slot where
  kind : Kind
  text : Option String
  parent : Option NodeId
  children : List NodeId
  index : Nat
  version : Nat
  attached : Bool
  deriving DecidableEq, Repr

instance : Inhabited Slot := ⟨⟨.errorNode, none, none, [], 0, 0, false⟩⟩

structure Tree where
  slots : Array Slot
  root : NodeId
  deriving DecidableEq, Inhabited, Repr

/-- A node together with the version it had when it was looked at. -/
structure Handle where
  id : NodeId
  version : Nat
  deriving DecidableEq, Inhabited, Repr

namespace Tree

/-- Number of slots, those of detached nodes included. -/
def size (t : Tree) : Nat := t.slots.size

def slot (t : Tree) (id : NodeId) : Slot := t.slots[id]?.getD default

def kind (t : Tree) (id : NodeId) : Kind := (t.slot id).kind

def tokenText? (t : Tree) (id : NodeId) : Option String := (t.slot id).text

def isToken (t : Tree) (id : NodeId) : Bool := (t.tokenText? id).isSome

def isTrivia (t : Tree) (id : NodeId) : Bool := (t.kind id).isTrivia

def parent? (t : Tree) (id : NodeId) : Option NodeId := (t.slot id).parent

def children (t : Tree) (id : NodeId) : List NodeId := (t.slot id).children

def index (t : Tree) (id : NodeId) : Nat := (t.slot id).index

def version (t : Tree) (id : NodeId) : Nat := (t.slot id).version

def isAttached (t : Tree) (id : NodeId) : Bool := (t.slot id).attached

theorem isAttached_eq_false_of_size_le {t : Tree} {id : NodeId} (h : t.size ≤ id) :
    t.isAttached id = false := by
  simp only [size] at h
  simp only [isAttached, slot, Array.getElem?_eq_none h]
  rfl

def solidChildren (t : Tree) (id : NodeId) : List NodeId :=
  (t.children id).filter (!t.isTrivia ·)

def childNodes (t : Tree) (id : NodeId) : List NodeId := (t.children id).filter (!t.isToken ·)

def next? (t : Tree) (id : NodeId) : Option NodeId :=
  (t.parent? id).bind fun p => (t.children p)[t.index id + 1]?

def prev? (t : Tree) (id : NodeId) : Option NodeId :=
  (t.parent? id).bind fun p => if t.index id = 0 then none else (t.children p)[t.index id - 1]?

def handle (t : Tree) (id : NodeId) : Handle := ⟨id, t.version id⟩

/-- A handle is valid while its node is attached and unchanged. -/
def isValid (t : Tree) (h : Handle) : Bool := t.isAttached h.id && t.version h.id == h.version

/-- Walks up from a node, for as many steps as there are slots. -/
def chain (t : Tree) : Nat → Option NodeId → List NodeId
  | 0, _ => []
  | _ + 1, none => []
  | fuel + 1, some id => id :: t.chain fuel (t.parent? id)

/-- The nodes above a node, innermost first. -/
def ancestors (t : Tree) (id : NodeId) : List NodeId := t.chain t.size (t.parent? id)

/-- Depth-first walk with a stack of nodes still to visit. -/
def walk (t : Tree) : Nat → List NodeId → List NodeId
  | 0, _ => []
  | _ + 1, [] => []
  | fuel + 1, id :: stack => id :: t.walk fuel (t.children id ++ stack)

/-- The nodes of a subtree, each before its children. -/
def preorder (t : Tree) (id : NodeId) : List NodeId := t.walk t.size [id]

def descendants (t : Tree) (id : NodeId) : List NodeId := (t.preorder id).filter (!t.isToken ·)

end Tree

end PhpLint
