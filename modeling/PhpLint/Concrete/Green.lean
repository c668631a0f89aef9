import PhpLint.Tree.Builder

/-!
A syntax tree as a plain value, without names for its nodes. The tree built from it numbers every
node behind its children.
-/

namespace PhpLint

inductive Green where
  | token (kind : Kind) (text : String)
  | node (kind : Kind) (children : List Green)
  deriving Inhabited, Repr

namespace Green

mutual

def text : Green → String
  | token _ text => text
  | node _ children => textAll children

def textAll : List Green → String
  | [] => ""
  | g :: gs => text g ++ textAll gs

end

theorem textAll_append (a b : List Green) : textAll (a ++ b) = textAll a ++ textAll b := by
  induction a with
  | nil => simp [textAll]
  | cons g a ih => simp [textAll, ih, String.append_assoc]

mutual

/-- The building steps of a tree. -/
def events : Green → List BuildEvent
  | token kind text => [.token kind text]
  | node kind children => .start kind :: eventsAll children ++ [.finish]

def eventsAll : List Green → List BuildEvent
  | [] => []
  | g :: gs => events g ++ eventsAll gs

end

def toTree (g : Green) : Tree := Tree.ofEvents g.events

end Green

end PhpLint
