import PhpLint.Tree.Slots

/-!
Building a tree from the leaves up. A node is opened, filled and closed; a mark taken inside an
open node lets a node be opened later that adopts what was added since.
-/

namespace PhpLint

/-- An open node: its kind and the children it has so far. -/
structure Frame where
  kind : Kind
  children : List NodeId
  deriving DecidableEq, Inhabited, Repr

/-- Nodes built so far, the open ones with the innermost first, and the last node that was closed
outside every other. -/
structure Builder where
  slots : Array Slot
  frames : List Frame
  last : Option NodeId
  deriving DecidableEq, Inhabited, Repr

namespace Builder

def empty : Builder := ⟨#[], [], none⟩

/-- Gives a new node to the innermost open one, if any is open. -/
def hand (frames : List Frame) (id : NodeId) : List Frame :=
  match frames with
  | [] => []
  | f :: rest => { f with children := f.children ++ [id] } :: rest

def start (b : Builder) (kind : Kind) : Builder := { b with frames := ⟨kind, []⟩ :: b.frames }

def token (b : Builder) (kind : Kind) (text : String) : Builder :=
  { b with
    slots := Slots.alloc b.slots kind (some text) [] true
    frames := hand b.frames b.slots.size }

def checkpoint (b : Builder) : Nat :=
  match b.frames with
  | [] => 0
  | f :: _ => f.children.length

/-- Opens a node that adopts what the innermost open node got since the mark. A mark beyond its
children adopts nothing. -/
def startAt (b : Builder) (mark : Nat) (kind : Kind) : Builder :=
  match b.frames with
  | [] => b.start kind
  | f :: rest =>
    { b with
      frames := ⟨kind, f.children.drop mark⟩ :: { f with children := f.children.take mark } :: rest }

def finishNode (b : Builder) : Builder :=
  match b.frames with
  | [] => b
  | f :: rest =>
    { slots := Slots.alloc b.slots f.kind none f.children true
      frames := hand rest b.slots.size
      last := if rest.isEmpty then some b.slots.size else b.last }

def finishAll (b : Builder) : Nat → Builder
  | 0 => b
  | n + 1 => b.finishNode.finishAll n

/-- Closes what is open. With nothing ever closed the tree is an empty file. -/
def finish (b : Builder) : Tree :=
  let done := b.finishAll b.frames.length
  match done.last with
  | some root => ⟨done.slots, root⟩
  | none =>
    let file := (done.start .sourceFile).finishNode
    ⟨file.slots, file.last.getD 0⟩

end Builder

/-- One step of building; marks go by name. -/
inductive BuildEvent where
  | start (kind : Kind)
  | token (kind : Kind) (text : String)
  | finish
  | mark (name : String)
  | startAt (name : String) (kind : Kind)
  deriving DecidableEq, Inhabited, Repr

namespace Builder

/-- Marks seen so far, the latest of a name first. -/
abbrev Marks := List (String × Nat)

def step : Builder × Marks → BuildEvent → Builder × Marks
  | (b, marks), .start kind => (b.start kind, marks)
  | (b, marks), .token kind text => (b.token kind text, marks)
  | (b, marks), .finish => (b.finishNode, marks)
  | (b, marks), .mark name => (b, (name, b.checkpoint) :: marks)
  | (b, marks), .startAt name kind => match marks.lookup name with
    | some mark => (b.startAt mark kind, marks)
    | none => (b.start kind, marks)

def run (events : List BuildEvent) : Builder × Marks := events.foldl step (empty, [])

end Builder

def Tree.ofEvents (events : List BuildEvent) : Tree := (Builder.run events).1.finish

end PhpLint
