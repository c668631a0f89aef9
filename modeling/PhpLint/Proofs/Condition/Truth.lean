import PhpLint.Condition.Terms
import PhpLint.Proofs.ReplaceCall.Simplifying

/-! The truth of a condition from that of its terms. Splitting loses nothing: a condition holds when
its terms do, all of them or one of them as the operator between them asks. -/

namespace PhpLint

namespace Terms

def IsConjunctive (op : Kind) : Prop := op = .amp2 ∨ op = .andKw

def IsDisjunctive (op : Kind) : Prop := op = .pipe2 ∨ op = .orKw

/-- Truth values of nodes that fit the logical operators and parentheses. -/
structure Logical (v : Node → Prop) : Prop where
  paren : ∀ {n inner : Node}, n.kind = .parenExpr → n.operand? = some inner → (v n ↔ v inner)
  conjunction : ∀ {n left right : Node} {op : Kind}, n.kind = .binaryExpr →
    n.operatorKind? = some op → IsConjunctive op → n.left? = some left → n.right? = some right →
    (v n ↔ v left ∧ v right)
  disjunction : ∀ {n left right : Node} {op : Kind}, n.kind = .binaryExpr →
    n.operatorKind? = some op → IsDisjunctive op → n.left? = some left → n.right? = some right →
    (v n ↔ v left ∨ v right)

/-- Truth of the terms together. A single term is as true as all of them are. -/
def Holds (ts : Terms) (v : Node → Prop) : Prop :=
  if ts.isDisjunction then ∃ term ∈ ts.terms, v term else ∀ term ∈ ts.terms, v term

instance (ts : Terms) (v : Node → Prop) [DecidablePred v] : Decidable (ts.Holds v) :=
  inferInstanceAs (Decidable (if ts.isDisjunction then _ else _))

/-- The terms that are left when one is deleted. -/
def without (ts : Terms) (term : Node) : Terms :=
  { ts with terms := ts.terms.filter (·.id != term.id) }

variable {v : Node → Prop} {op : Kind} {n c : Node} {ts : Terms}

theorem isDisjunction_iff :
    ts.isDisjunction = true ↔ ∃ op, ts.operator = some op ∧ IsDisjunctive op := by
  simp only [isDisjunction, Bool.or_eq_true, beq_iff_eq, IsDisjunctive]
  constructor
  · rintro (h | h)
    · exact ⟨_, h, .inl rfl⟩
    · exact ⟨_, h, .inr rfl⟩
  · rintro ⟨op, h, rfl | rfl⟩
    · exact .inl h
    · exact .inr h

theorem isConjunction_iff :
    ts.isConjunction = true ↔ ∃ op, ts.operator = some op ∧ IsConjunctive op := by
  simp only [isConjunction, Bool.or_eq_true, beq_iff_eq, IsConjunctive]
  constructor
  · rintro (h | h)
    · exact ⟨_, h, .inl rfl⟩
    · exact ⟨_, h, .inr rfl⟩
  · rintro ⟨op, h, rfl | rfl⟩
    · exact .inl h
    · exact .inr h

theorem isDisjunction_eq_false (h : ts.isConjunction = true) : ts.isDisjunction = false := by
  obtain ⟨op, hop, rfl | rfl⟩ := isConjunction_iff.1 h <;> simp [isDisjunction, hop]

theorem holds_of_isDisjunction (h : ts.isDisjunction = true) :
    ts.Holds v ↔ ∃ term ∈ ts.terms, v term := by
  rw [Holds, if_pos h]

theorem holds_of_isConjunction (h : ts.isConjunction = true) :
    ts.Holds v ↔ ∀ term ∈ ts.terms, v term := by
  rw [Holds, isDisjunction_eq_false h, if_neg Bool.false_ne_true]

theorem mem_terms_without {term : Node} :
    n ∈ (ts.without term).terms ↔ n ∈ ts.terms ∧ n.id ≠ term.id := by
  rw [without, List.mem_filter, bne_iff_ne]

namespace Logical

variable (hv : Logical v)

include hv

theorem unparenthesized (n : Node) : v n.unparenthesized ↔ v n := by
  fun_induction Node.unparenthesized n with
  | case1 n hkind inner hinner ih => exact ih.trans (hv.paren hkind hinner).symm
  | case2 => rfl
  | case3 => rfl

theorem chain_of_isConjunctive (hop : IsConjunctive op) (n : Node) :
    (∀ term ∈ chain op n, v term) ↔ v n := by
  fun_induction chain op n with
  | case1 n hn left right hleft hright ih =>
    rw [List.forall_mem_append, ih, List.forall_mem_singleton, hv.unparenthesized,
      hv.conjunction hn.1 hn.2 hop hleft hright]
  | case2 => rw [List.forall_mem_singleton, hv.unparenthesized]
  | case3 => rw [List.forall_mem_singleton, hv.unparenthesized]

theorem chain_of_isDisjunctive (hop : IsDisjunctive op) (n : Node) :
    (∃ term ∈ chain op n, v term) ↔ v n := by
  fun_induction chain op n with
  | case1 n hn left right hleft hright ih =>
    simp only [List.mem_append, List.mem_singleton, or_and_right, exists_or, exists_eq_left, ih,
      hv.unparenthesized]
    exact (hv.disjunction hn.1 hn.2 hop hleft hright).symm
  | case2 => simp only [List.mem_singleton, exists_eq_left, hv.unparenthesized]
  | case3 => simp only [List.mem_singleton, exists_eq_left, hv.unparenthesized]

end Logical

/-- The operator between the terms is one that joins truth values. -/
theorem operator_ofCondition (c : Node) : (ofCondition c).operator = none ∨
    ∃ op, (ofCondition c).operator = some op ∧ (IsConjunctive op ∨ IsDisjunctive op) := by
  rw [ofCondition]
  cases hop : operatorOf? c.unparenthesized with
  | none => exact .inl rfl
  | some op =>
    refine .inr ⟨op, rfl, ?_⟩
    unfold operatorOf? at hop
    split at hop
    · have hlogical := (Option.filter_eq_some_iff.1 hop).2
      cases op <;> first | cases hlogical; done | simp [IsConjunctive, IsDisjunctive]
    · cases hop

theorem length_of_operator_eq_none (h : (ofCondition c).operator = none) :
    (ofCondition c).terms.length = 1 := by
  rw [ofCondition] at h ⊢
  cases hop : operatorOf? c.unparenthesized with
  | none => rfl
  | some op =>
    rw [hop] at h
    cases h

/-- A condition is as true as its terms together. -/
theorem holds_ofCondition (hv : Logical v) (c : Node) : (ofCondition c).Holds v ↔ v c := by
  rw [← hv.unparenthesized c]
  have hoperator := operator_ofCondition c
  rw [ofCondition] at hoperator ⊢
  cases hop : operatorOf? c.unparenthesized with
  | none => simp [Holds, isDisjunction]
  | some op =>
    simp only [hop, Option.some.injEq, exists_eq_left', reduceCtorEq, false_or] at hoperator
    dsimp only
    rcases hoperator with hconj | hdisj
    · rw [holds_of_isConjunction (isConjunction_iff.2 ⟨op, rfl, hconj⟩)]
      exact hv.chain_of_isConjunctive hconj _
    · rw [holds_of_isDisjunction (isDisjunction_iff.2 ⟨op, rfl, hdisj⟩)]
      exact hv.chain_of_isDisjunctive hdisj _

/-! Where the terms stand. -/

theorem mem_preorder_of_mem_chain (h : n ∈ chain op c) : n ∈ c.preorder := by
  fun_induction chain op c with
  | case1 c hc left right hleft hright ih =>
    have hmem : ∀ m, c.left? = some m ∨ c.right? = some m → m ∈ c.children := by
      intro m hm
      have hchild : m ∈ c.childNodes := by
        rw [Node.left?, Node.right?, hc.1] at hm
        exact hm.elim List.mem_of_getElem? List.mem_of_getElem?
      exact List.mem_of_mem_filter hchild
    rcases List.mem_append.1 h with h | h
    · exact Node.mem_preorder_of_child (hmem left (.inl hleft)) (ih h)
    · obtain rfl := List.mem_singleton.1 h
      exact Node.mem_preorder_of_child (hmem right (.inr hright)) right.unparenthesized_mem_preorder
  | case2 c =>
    obtain rfl := List.mem_singleton.1 h
    exact c.unparenthesized_mem_preorder
  | case3 c =>
    obtain rfl := List.mem_singleton.1 h
    exact c.unparenthesized_mem_preorder

/-- The terms of a condition are parts of it. -/
theorem mem_preorder_of_mem_ofCondition (h : n ∈ (ofCondition c).terms) : n ∈ c.preorder := by
  refine Node.mem_preorder_trans c.unparenthesized_mem_preorder ?_
  rw [ofCondition] at h
  split at h
  next => exact mem_preorder_of_mem_chain h
  next =>
    obtain rfl := List.mem_singleton.1 h
    exact Node.mem_preorder_self _

end Terms

end PhpLint
