/-!
The concrete tree that a grammar makes of a text: named pieces with byte offsets, errors and
missing pieces marked. A grammar itself is any function from texts to such trees.
-/

namespace PhpLint

/-- A piece of a concrete tree, its children aside. -/
structure Head where
  kind : String
  named : Bool
  missing : Bool
  error : Bool
  /-- The piece or one below it is an error or missing. -/
  faulty : Bool
  start : Nat
  stop : Nat
  /-- Name of the piece's role in its parent. -/
  field : Option String
  deriving DecidableEq, Inhabited, Repr

structure Concrete where
  head : Head
  children : List Concrete
  deriving Inhabited, Repr

/-- The tree of a text, if the grammar makes one. -/
abbrev Grammar := String → Option Concrete

namespace Concrete

abbrev kind (c : Concrete) : String := c.head.kind

abbrev start (c : Concrete) : Nat := c.head.start

abbrev stop (c : Concrete) : Nat := c.head.stop

/-- Place of the first child with the given role. -/
def fieldIndex? (c : Concrete) (name : String) : Option Nat :=
  c.children.findIdx? (·.head.field == some name)

def namedChildren (c : Concrete) : List Concrete := c.children.filter (·.head.named)

/-- A tree written as the list of its pieces, each before its children and with their number. -/
def ofRows (rows : List (Head × Nat)) : Option Concrete :=
  (rows.foldr (fun row done => ⟨row.1, done.take row.2⟩ :: done.drop row.2) []).head?

end Concrete

end PhpLint
