import PhpLint.Tree.Expression

/-!
How expensive a condition is to evaluate, as a rank: reads are free, operators count one and calls
five, unless the function is known to be cheap. Ranks only compare neighbouring terms.
-/

namespace PhpLint.Cost

def builtinCheap : List String := [
  "array_key_exists", "defined", "is_array", "is_string", "is_bool", "is_int", "is_float",
  "is_resource", "is_numeric", "is_scalar", "is_object"]

def callCost : Nat := 5

def operatorCost : Nat := 1

def unknownCost : Nat := 10

/-- The base cost of calling a function by its name. -/
def functionCost (cheap : List String) (n : Node) : Nat :=
  if n.calleeName?.any fun name => cheap.contains name.toLower then 0 else callCost

mutual

/-- Rank of an expression; `cheap` holds function names in lower case. -/
def cost (cheap : List String) : Node → Nat
  | ⟨id, kind, token, children⟩ =>
    match kind with
    | .literal | .variableExpr | .nameRef | .classConstFetch | .staticPropertyFetch => 0
    | .propertyFetch | .unaryExpr | .parenExpr | .castExpr | .postfixExpr => costFirst cheap children
    | .arrayAccessExpr => costAll cheap children
    | .issetExpr | .emptyExpr => costArguments cheap children
    | .callExpr =>
      functionCost cheap ⟨id, .callExpr, token, children⟩ + costArguments cheap children
    | .methodCallExpr | .staticCallExpr | .newExpr => callCost + costArguments cheap children
    | .binaryExpr | .assignExpr | .ternaryExpr => costAll cheap children + operatorCost
    | _ => unknownCost

/-- Sum over the nodes among the children. -/
def costAll (cheap : List String) : List Node → Nat
  | [] => 0
  | c :: cs => if c.isToken then costAll cheap cs else cost cheap c + costAll cheap cs

/-- The first node among the children. -/
def costFirst (cheap : List String) : List Node → Nat
  | [] => 0
  | c :: cs => if c.isToken then costFirst cheap cs else cost cheap c

/-- Sum over the arguments in the first argument list among the children. -/
def costArguments (cheap : List String) : List Node → Nat
  | [] => 0
  | ⟨_, kind, _, inner⟩ :: cs =>
    if kind = .argList then costAll cheap inner else costArguments cheap cs

end

theorem costAll_eq (cheap : List String) (cs : List Node) :
    costAll cheap cs = ((cs.filter (!·.isToken)).map (cost cheap)).foldr (· + ·) 0 := by
  induction cs with
  | nil => rfl
  | cons c cs ih => by_cases h : c.isToken <;> simp [costAll, h, ih]

theorem costFirst_eq (cheap : List String) (cs : List Node) :
    costFirst cheap cs = (((cs.filter (!·.isToken)).head?).map (cost cheap)).getD 0 := by
  induction cs with
  | nil => rfl
  | cons c cs ih => by_cases h : c.isToken <;> simp [costFirst, h, ih]

theorem costArguments_eq (cheap : List String) (n : Node) :
    costArguments cheap n.children = (n.arguments.map (cost cheap)).foldr (· + ·) 0 := by
  cases n with
  | mk id kind token children =>
    simp only [Node.arguments, Node.argList?, Node.firstOfKind?]
    induction children with
    | nil => rfl
    | cons c cs ih =>
      cases c with
      | mk _ k _ inner =>
        by_cases h : k = .argList
        · simp [costArguments, h, costAll_eq, Node.childNodes]
        · simp [costArguments, h, ih]

/-- A cost depends on the kind of a node, on the costs of its nodes and its arguments, and of a call
on what is called. -/
theorem cost_congr {cheap : List String} {n n' : Node} (hkind : n.kind = n'.kind)
    (hfunction : n.kind = .callExpr → functionCost cheap n = functionCost cheap n')
    (hnodes : n.childNodes.map (cost cheap) = n'.childNodes.map (cost cheap))
    (harguments : n.arguments.map (cost cheap) = n'.arguments.map (cost cheap)) :
    cost cheap n = cost cheap n' := by
  have hfirst : costFirst cheap n.children = costFirst cheap n'.children := by
    have hhead := congrArg (fun costs => costs.head?.getD 0) hnodes
    simp only [List.head?_map] at hhead
    rw [costFirst_eq, costFirst_eq]
    exact hhead
  have hall : costAll cheap n.children = costAll cheap n'.children := by
    rw [costAll_eq, costAll_eq]
    exact congrArg (·.foldr (· + ·) 0) hnodes
  have hlist : costArguments cheap n.children = costArguments cheap n'.children := by
    rw [costArguments_eq, costArguments_eq, harguments]
  obtain ⟨id, kind, token, children⟩ := n
  obtain ⟨id', kind', token', children'⟩ := n'
  cases hkind
  rw [cost.eq_def, cost.eq_def]
  dsimp only
  split
  iterate 5 rfl
  iterate 5 exact hfirst
  · exact hall
  iterate 2 exact hlist
  · rw [hfunction rfl, hlist]
  iterate 3 rw [hlist]
  iterate 3 rw [hall]
  rfl

end PhpLint.Cost
