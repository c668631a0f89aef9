import PhpLint.Text.Line
import PhpLint.Tree.Node

/-!
Where a node stands in the text: its byte offset, and its line and column counted from one.
-/

namespace PhpLint.Tree

/-- Text before a node inside the nodes above it, those at most `depth` levels up. -/
def offsetWithin (t : Tree) : Nat → NodeId → Nat
  | 0, _ => 0
  | depth + 1, id => match t.parent? id with
    | none => 0
    | some p =>
      ((t.children p).take (t.index id)).foldr (t.textLength · + ·) (t.offsetWithin depth p)

def offset (t : Tree) (id : NodeId) : Nat := t.offsetWithin t.size id

structure Location where
  line : Nat
  column : Nat
  deriving DecidableEq, Inhabited, Repr

def location (t : Tree) (id : NodeId) : Location :=
  let before := Text.takeBytes (t.offset id) t.text.toList
  ⟨Text.newlines before + 1, Text.lastLineLength before + 1⟩

end PhpLint.Tree
