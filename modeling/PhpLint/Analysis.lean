import PhpLint.Hierarchy.Memo
import PhpLint.Rule.Collector
import PhpLint.Rule.Dispatch
import PhpLint.Rule.Shipped

/-!
An analysis is a set of rules for one run. It walks a tree and gives every node to the rules that
are interested in its kind; findings come out in the order of the walk, and at one node in the
order of the rules.
-/

namespace PhpLint

structure Analysis where
  rules : List Rule
  options : Options
  coupling : Coupling
  deriving Inhabited

namespace Analysis

/-- The given rules, those that are disabled left out. -/
def withRules (options : Options) (rules : List Rule) : Analysis :=
  ⟨rules.filter fun r => options.isEnabled r.id, options, Coupling.shared⟩

def new (options : Options) : Analysis := withRules options Rule.shipped

/-- Another notion of conditions that may not change places. -/
def withCoupling (a : Analysis) (coupling : Coupling) : Analysis := { a with coupling := coupling }

def ruleIds (a : Analysis) : List String := a.rules.map (·.id)

/-- Places of the rules that are interested in a kind. -/
def dispatch (rules : List Rule) (kind : Kind) : List Nat := (Dispatch.ofRules rules).places kind

def context (a : Analysis) (t : Tree) (classes : ClassLookup) : RuleContext :=
  ⟨t, a.options, classes, a.coupling, a.options.cheapNames⟩

/-- The findings at one node. -/
def visit (a : Analysis) (t : Tree) (classes : ClassLookup) (node : NodeId) : List Finding :=
  (dispatch a.rules (t.kind node)).flatMap fun i => match a.rules[i]? with
    | some rule => rule.check (a.context t classes) node
    | none => []

/-- The findings of a whole subtree, collected node by node. -/
def collect (a : Analysis) (t : Tree) (classes : ClassLookup) (root : NodeId) : Collector :=
  (t.descendants root).foldl (fun c n => c.reportAll (a.visit t (Memo.fresh classes).lookup n))
    .empty

def visitSubtree (a : Analysis) (t : Tree) (classes : ClassLookup) (root : NodeId) :
    List Finding :=
  (a.collect t classes root).findings

/-- The findings of a whole tree. -/
def findings (a : Analysis) (t : Tree) (classes : ClassLookup) : List Finding :=
  (t.descendants t.root).flatMap (a.visit t (Memo.fresh classes).lookup)

end Analysis

/-- A walk that stops at each finding: the nodes still to visit, and the findings not yet given. -/
structure Search where
  stack : List NodeId
  pending : List Finding
  deriving Inhabited

namespace Search

def start (t : Tree) : Search := ⟨[t.root], []⟩

/-- The next finding. `fuel` bounds the number of nodes visited on the way. -/
def next? (a : Analysis) (t : Tree) (classes : ClassLookup) :
    Nat → Search → Option (Finding × Search)
  | _, ⟨stack, found :: pending⟩ => some (found, ⟨stack, pending⟩)
  | 0, _ => none
  | _ + 1, ⟨[], []⟩ => none
  | fuel + 1, ⟨node :: stack, []⟩ =>
    let found := if t.isToken node then [] else a.visit t classes node
    next? a t classes fuel ⟨t.children node ++ stack, found⟩

def takeFrom (a : Analysis) (t : Tree) (classes : ClassLookup) : Nat → Search → List Finding
  | 0, _ => []
  | n + 1, s => match s.next? a t classes (t.size + 1) with
    | none => []
    | some (found, s) => found :: takeFrom a t classes n s

/-- The first `n` findings of a tree. No more of it is visited than they need. -/
def take (a : Analysis) (t : Tree) (classes : ClassLookup) (n : Nat) : List Finding :=
  takeFrom a t (Memo.fresh classes).lookup n (start t)

end Search

end PhpLint
