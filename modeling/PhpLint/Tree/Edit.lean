import PhpLint.Tree.Node
import PhpLint.Tree.Slots

/-!
Changing a tree: detached subtrees are put in, subtrees are taken out. Every change raises the
version of the nodes above it and of the subtree that moves, which makes their handles stale.
-/

namespace PhpLint

inductive StructureError where
  | notAttached (id : NodeId)
  | isRoot (id : NodeId)
  | alreadyAttached (id : NodeId)
  | outOfBounds (parent : NodeId) (index : Nat)
  deriving DecidableEq, Inhabited, Repr

def StructureError.message : StructureError → String
  | notAttached id => "node " ++ NodeId.render id ++ " is not attached to the tree"
  | isRoot id => "node " ++ NodeId.render id ++ " is the root and cannot be moved"
  | alreadyAttached id => "node " ++ NodeId.render id ++ " already has a parent"
  | outOfBounds parent index =>
    "child index " ++ toString index ++ " out of bounds for node " ++ NodeId.render parent

/-- A change of a tree. One that fails leaves behind whatever it had done before. -/
abbrev TreeEdit := EStateM StructureError Tree

namespace Tree

def update (t : Tree) (id : NodeId) (f : Slot → Slot) : Tree :=
  { t with slots := t.slots.modify id f }

/-- Tells the children of a node their places. -/
def reindex (t : Tree) (parent : NodeId) : Tree :=
  (t.children parent).zipIdx.foldl (fun t c => t.update c.1 fun s => { s with index := c.2 }) t

/-- Marks a whole subtree as attached or not. -/
def setAttached (t : Tree) (id : NodeId) (attached : Bool) : Tree :=
  (t.preorder id).foldl
    (fun t n => t.update n fun s => { s with attached, version := s.version + 1 }) t

/-- Raises the version of a node and of those above it. -/
def bump (t : Tree) (id : NodeId) : Tree :=
  (id :: t.ancestors id).foldl (fun t n => t.update n fun s => { s with version := s.version + 1 }) t

def linked (t : Tree) (parent : NodeId) (index : Nat) (child : NodeId) : Tree :=
  let t := t.update parent fun s => { s with children := s.children.insertIdx index child }
  let t := t.update child fun s => { s with parent := some parent }
  ((t.reindex parent).setAttached child true).bump parent

def unlinked (t : Tree) (parent : NodeId) (index : Nat) (child : NodeId) : Tree :=
  let t := t.update parent fun s => { s with children := s.children.eraseIdx index }
  let t := t.update child fun s => { s with parent := none }
  ((t.reindex parent).setAttached child false).bump parent

/-- Puts the detached subtree `child` in as child number `index` of `parent`. -/
def insert (parent : NodeId) (index : Nat) (child : NodeId) : TreeEdit Unit := do
  let t ← get
  if !t.isAttached parent then throw (.notAttached parent)
  if child = t.root then throw (.isRoot child)
  if (t.parent? child).isSome || t.isAttached child then throw (.alreadyAttached child)
  if (t.children parent).length < index then throw (.outOfBounds parent index)
  set (t.linked parent index child)

/-- Takes a subtree out and answers the place it had. -/
def remove (id : NodeId) : TreeEdit Nat := do
  let t ← get
  if id = t.root then throw (.isRoot id)
  if !t.isAttached id then throw (.notAttached id)
  match t.parent? id with
  | none => throw (.notAttached id)
  | some parent =>
    set (t.unlinked parent (t.index id) id)
    return t.index id

/-- Puts the detached subtree `replacement` where `old` was. -/
def replace (old replacement : NodeId) : TreeEdit Unit := do
  let t ← get
  if t.isAttached replacement then throw (.alreadyAttached replacement)
  match t.parent? old with
  | none => throw (.isRoot old)
  | some parent =>
    let index ← remove old
    insert parent index replacement

end Tree

mutual

def Slots.graft (slots : Array Slot) : Node → Array Slot × NodeId
  | ⟨_, kind, token, children⟩ =>
    let (slots, ids) := Slots.graftAll slots children
    (Slots.alloc slots kind token ids false, slots.size)

def Slots.graftAll (slots : Array Slot) : List Node → Array Slot × List NodeId
  | [] => (slots, [])
  | n :: ns =>
    let (slots, id) := Slots.graft slots n
    let (slots, ids) := Slots.graftAll slots ns
    (slots, id :: ids)

end

/-- Copies a subtree into the tree, detached; the copy's topmost node is named. -/
def Tree.graft (t : Tree) (n : Node) : Tree × NodeId :=
  let (slots, id) := Slots.graft t.slots n
  ({ t with slots }, id)

end PhpLint
