import PhpLint.Analysis
import PhpLint.Fix.Plan
import PhpLint.Tree.Integrity

/-!
Carrying out fixes. A plan is applied as a whole or not at all: its edits run on a copy, which
takes the place of the tree when every one of them succeeded and the tree still fits together.
-/

namespace PhpLint

/-- A fix that was applied, and the number of its edits. -/
structure AppliedFix where
  name : String
  edits : Nat
  deriving DecidableEq, Inhabited, Repr

namespace Edit

def structurally {α : Type} (edit : TreeEdit α) (t : Tree) : Except EditError Tree :=
  match edit.run t with
  | .ok _ t => .ok t
  | .error e _ => .error (.structural e)

/-- Parses a fragment and copies it into the tree, detached. -/
def graft (grammar : Grammar) (t : Tree) (text : String) (kind : FragmentKind) :
    Except EditError (Tree × NodeId) :=
  match Fragment.parse grammar text kind with
  | .ok fragment => .ok (t.graft (fragment.tree.node fragment.node))
  | .error (.rejected e) => .error (.parse e)
  | .error (.unscannable fault) => .error (.unscannable fault)

def apply (grammar : Grammar) (t : Tree) : Edit → Except EditError Tree
  | insertSibling anchor after kind text =>
    if !t.isAttached anchor then .error (.invalidated anchor)
    else match t.parent? anchor with
      | none => .error (.structural (.isRoot anchor))
      | some parent => do
        let (grown, node) ← graft grammar t text kind
        structurally (Tree.insert parent (t.index anchor + if after then 1 else 0) node) grown
  | replace target kind text =>
    if !t.isAttached target then .error (.invalidated target)
    else do
      let (grown, node) ← graft grammar t text kind
      structurally (Tree.replace target node) grown
  | delete target =>
    if !t.isAttached target then .error (.invalidated target)
    else structurally (Tree.remove target) t

end Edit

namespace EditPlan

def apply (grammar : Grammar) (t : Tree) (plan : EditPlan) : Except EditError (Tree × AppliedFix) :=
  match plan.edits.foldlM (Edit.apply grammar) t with
  | .error e => .error e
  | .ok staged => match staged.defect? with
    | some defect => .error (.malformed defect.message)
    | none => .ok (staged, ⟨plan.name, plan.edits.length⟩)

end EditPlan

namespace Fix

def apply (grammar : Grammar) (t : Tree) (fix : Fix) : Except EditError (Tree × AppliedFix) :=
  match fix.plan t with
  | .error e => .error e
  | .ok plan => plan.apply grammar t

/-- Applies fixes in order. One that fails leaves the tree to the others as it was. -/
def applyAll (grammar : Grammar) (t : Tree) : List Fix → Tree × List (Except EditError AppliedFix)
  | [] => (t, [])
  | fix :: fixes => match fix.apply grammar t with
    | .error e =>
      let (t, results) := applyAll grammar t fixes
      (t, .error e :: results)
    | .ok (t, applied) =>
      let (t, results) := applyAll grammar t fixes
      (t, .ok applied :: results)

def succeeded (results : List (Except EditError AppliedFix)) : List AppliedFix :=
  results.filterMap fun
    | .ok applied => some applied
    | .error _ => none

def maxRounds : Nat := 8

/-- Scans and fixes until a round changes nothing, or the rounds are used up. -/
def applyRounds (grammar : Grammar) (a : Analysis) : Nat → Tree → Tree × List AppliedFix
  | 0, t => (t, [])
  | rounds + 1, t =>
    let fixes := (a.findings t (Hierarchy.ofTree t).lookup).filterMap (·.fix)
    let (fixed, results) := applyAll grammar t fixes
    let applied := succeeded results
    if applied.isEmpty then (fixed, [])
    else
      let (t, more) := applyRounds grammar a rounds fixed
      (t, applied ++ more)

/-- Applies everything that the shipped rules offer. -/
def fixAll (grammar : Grammar) (options : Options) (t : Tree) : Tree × List AppliedFix :=
  applyRounds grammar (Analysis.new options) maxRounds t

end Fix

/-- Fixes a source. One with syntax errors is refused. -/
def Parse.fixSource (grammar : Grammar) (options : Options) (source : String) :
    Except FragmentError (String × List AppliedFix) :=
  match Parse.file grammar source with
  | .error fault => .error (.unscannable fault)
  | .ok parse => match parse.errors with
    | e :: _ => .error (.rejected e)
    | [] =>
      let (t, applied) := Fix.fixAll grammar options parse.tree
      .ok (t.text, applied)

end PhpLint
