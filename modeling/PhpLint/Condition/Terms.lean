import PhpLint.Tree.Expression

/-!
Conditions as chains of terms. A condition is split at its outermost logical operator, along the
left operands that are joined by that same operator; parentheses around it and around each term
are dropped.
-/

namespace PhpLint

/-- The terms of a condition in source order, and the operator between them if there are several. -/
structure Terms where
  operator : Option Kind
  terms : List Node
  deriving Inhabited, Repr

namespace Terms

def isConjunction (ts : Terms) : Bool :=
  ts.operator == some .amp2 || ts.operator == some .andKw

def isDisjunction (ts : Terms) : Bool :=
  ts.operator == some .pipe2 || ts.operator == some .orKw

/-- The terms that `op` joins, the left operand being split further. -/
def chain (op : Kind) (n : Node) : List Node :=
  if n.kind = .binaryExpr ∧ n.operatorKind? = some op then
    match _h : n.left?, n.right? with
    | some left, some right => chain op left ++ [right.unparenthesized]
    | _, _ => [n.unparenthesized]
  else [n.unparenthesized]
termination_by sizeOf n
decreasing_by exact Node.sizeOf_left? ‹_›

theorem chain_of_operands {op : Kind} {n left right : Node}
    (hn : n.kind = .binaryExpr ∧ n.operatorKind? = some op) (hleft : n.left? = some left)
    (hright : n.right? = some right) :
    chain op n = chain op left ++ [right.unparenthesized] := by
  conv => lhs; rw [chain]
  rw [if_pos hn]
  split
  next hl hr =>
    rw [hleft] at hl
    rw [hright] at hr
    cases hl
    cases hr
    rfl
  next hnone => exact (hnone left right hleft hright).elim

theorem chain_of_no_operands {op : Kind} {n : Node}
    (h : ∀ left, n.left? = some left → ∀ right, n.right? = some right → False) :
    chain op n = [n.unparenthesized] := by
  rw [chain]
  split
  · split
    next left right hleft hright => exact (h left hleft right hright).elim
    next => rfl
  · rfl

/-- The logical operator at the top of a condition. -/
def operatorOf? (n : Node) : Option Kind :=
  if n.kind = .binaryExpr then n.operatorKind?.filter Kind.isLogicalOp else none

def ofCondition (condition : Node) : Terms :=
  let root := condition.unparenthesized
  match operatorOf? root with
  | some op => ⟨some op, chain op root⟩
  | none => ⟨none, [root]⟩

end Terms

end PhpLint
