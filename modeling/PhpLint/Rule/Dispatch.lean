import PhpLint.Rule.Basic

/-!
A table from kinds of nodes to the rules that look at them. Rules stand in it by their place in the
list they came from, each once under a kind however often it names the kind.
-/

namespace PhpLint

/-- Places by kind. Where a kind has several entries the first one counts. -/
structure Dispatch where
  byKind : List (Kind × List Nat)
  deriving Inhabited

namespace Dispatch

def empty : Dispatch := ⟨[]⟩

/-- Places of the rules that look at nodes of a kind. -/
def places (d : Dispatch) (kind : Kind) : List Nat := (d.byKind.lookup kind).getD []

def note (d : Dispatch) (place : Nat) (kind : Kind) : Dispatch :=
  if (d.places kind).contains place then d else ⟨(kind, d.places kind ++ [place]) :: d.byKind⟩

def ofRules (rules : List Rule) : Dispatch :=
  rules.zipIdx.foldl (fun d r => r.1.interests.foldl (·.note r.2) d) empty

end Dispatch

end PhpLint
