import PhpLint.Tree.Basic

/-!
Growing the array of slots: a new node takes the next free place and its children learn their
parent and their place.
-/

namespace PhpLint.Slots

def adopt (slots : Array Slot) (parent : NodeId) (children : List NodeId) : Array Slot :=
  children.zipIdx.foldl
    (fun slots c => slots.modify c.1 fun s => { s with parent := some parent, index := c.2 }) slots

/-- Appends a node; its name is the number of slots before. -/
def alloc (slots : Array Slot) (kind : Kind) (text : Option String) (children : List NodeId)
    (attached : Bool) : Array Slot :=
  (adopt slots slots.size children).push ⟨kind, text, none, children, 0, 0, attached⟩

theorem size_adopt (slots : Array Slot) (parent : NodeId) (children : List NodeId) :
    (adopt slots parent children).size = slots.size := by
  unfold adopt
  generalize children.zipIdx = placed
  induction placed generalizing slots with
  | nil => rfl
  | cons c rest ih => rw [List.foldl_cons, ih, Array.size_modify]

theorem size_alloc (slots : Array Slot) (kind : Kind) (text : Option String)
    (children : List NodeId) (attached : Bool) :
    (alloc slots kind text children attached).size = slots.size + 1 := by
  simp [alloc, size_adopt]

end PhpLint.Slots
