import PhpLint.Proofs.Tree.Subtree
import PhpLint.Tree.Expression

/-! Parts of expressions stand below them, and what is left of a node without its parentheses. -/

namespace PhpLint.Node

variable {n c inner : Node}

theorem mem_children_of_operand? (h : n.operand? = some c) : c ∈ n.children := by
  have hmem : c ∈ n.childNodes := by
    unfold operand? at h
    split at h <;> first | exact List.mem_of_getElem? h | cases h
  exact (List.mem_filter.1 hmem).1

theorem token_of_mem_childNodes (h : c ∈ n.childNodes) : c.token = none := by
  simpa [isToken] using (List.mem_filter.1 h).2

theorem exists_child_of_mem_arguments (h : c ∈ n.arguments) :
    ∃ list ∈ n.children, c ∈ list.children := by
  rw [arguments] at h
  cases hlist : n.argList? with
  | none => simp [hlist] at h
  | some list =>
    rw [hlist] at h
    exact ⟨list, List.mem_of_find?_eq_some hlist, (List.mem_filter.1 h).1⟩

theorem operand?_eq_find? (h : n.kind = .parenExpr) :
    n.operand? = n.children.find? (!·.isToken) := by
  rw [operand?, h, childNodes, ← List.head?_eq_getElem?, List.head?_filter]

theorem unparenthesized_mem_preorder (n : Node) : n.unparenthesized ∈ n.preorder := by
  fun_induction unparenthesized n with
  | case1 n hkind inner hinner ih =>
    exact mem_preorder_of_child (mem_children_of_operand? hinner) ih
  | case2 n hkind hnone => exact mem_preorder_self n
  | case3 n hkind => exact mem_preorder_self n

theorem unparenthesized_of_kind_ne (h : n.kind ≠ .parenExpr) : n.unparenthesized = n := by
  rw [unparenthesized, if_neg h]

theorem unparenthesized_of_variableName? {name : String} (h : n.variableName? = some name) :
    n.unparenthesized = n := by
  refine unparenthesized_of_kind_ne fun hkind => ?_
  simp [variableName?, hkind] at h

theorem unparenthesized_of_operand? (hkind : n.kind = .parenExpr) (h : n.operand? = some inner) :
    n.unparenthesized = inner.unparenthesized := by
  conv_lhs => rw [unparenthesized]
  rw [if_pos hkind]
  split
  next c hc =>
    rw [h] at hc
    cases hc
    rfl
  next hnone =>
    rw [h] at hnone
    cases hnone

theorem unparenthesized_of_operand?_eq_none (h : n.operand? = none) : n.unparenthesized = n := by
  rw [unparenthesized]
  split
  · split
    next c hc =>
      rw [h] at hc
      cases hc
    next => rfl
  · rfl

theorem token_unparenthesized (h : n.token = none) : n.unparenthesized.token = none := by
  fun_induction unparenthesized n with
  | case1 n hkind inner hinner ih =>
    rw [operand?_eq_find? hkind] at hinner
    exact ih (by simpa [isToken] using List.find?_some hinner)
  | case2 => exact h
  | case3 => exact h

/-- Parentheses are left only where nothing stands in them. -/
theorem operand?_unparenthesized (h : n.unparenthesized.kind = .parenExpr) :
    n.unparenthesized.operand? = none := by
  fun_induction unparenthesized n with
  | case1 n hkind inner hinner ih => exact ih h
  | case2 n hkind hnone => exact hnone
  | case3 n hkind => exact absurd h hkind

theorem unparenthesized_unparenthesized (n : Node) :
    n.unparenthesized.unparenthesized = n.unparenthesized := by
  by_cases hkind : n.unparenthesized.kind = .parenExpr
  · exact unparenthesized_of_operand?_eq_none (operand?_unparenthesized hkind)
  · exact unparenthesized_of_kind_ne hkind

end PhpLint.Node
