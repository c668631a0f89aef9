import PhpLint.Proofs.Tree.Subtree

/-! A tree and the subtrees at its nodes say the same: what is asked of a name is answered by the
subtree there. -/

namespace PhpLint

namespace Tree

variable {t : Tree} {n m : Node} {id : NodeId}

/-- A name that no slot has stands for nothing. -/
theorem node_of_size_le (h : t.size ≤ id) : t.node id = ⟨id, .errorNode, none, []⟩ := by
  have hslot : t.slot id = default := slot_of_size_le h
  rw [node]
  cases t.size with
  | zero => rw [nodeWithin, kind, tokenText?, hslot]; rfl
  | succ depth => rw [nodeWithin, kind, tokenText?, children, hslot]; rfl

theorem Linked.within_of_mem_preorder_node (h : t.Linked) (hm : m ∈ (t.node id).preorder) :
    t.Within m.id id := by
  by_cases hid : id < t.size
  · have hw := h.within_of_mem_preorder (h.holds_node hid) hm
    rwa [id_node] at hw
  · rw [node_of_size_le (Nat.le_of_not_lt hid), Node.preorder_eq, List.flatMap_nil,
      List.mem_singleton] at hm
    exact hm ▸ .refl t id

variable (hn : Slots.Holds t.slots n)

include hn

theorem children_of_holds : t.children n.id = n.children.map Node.id := hn.children_eq

theorem kind_of_holds : t.kind n.id = n.kind := hn.kind_eq

theorem isToken_of_holds : t.isToken n.id = n.isToken := by
  rw [isToken, tokenText?, slot_eq_get, hn.text_eq, Node.isToken]

theorem isTrivia_of_holds : t.isTrivia n.id = n.isTrivia := by
  rw [isTrivia, kind_of_holds hn, Node.isTrivia]

/-- The children that pass a test, named or looked at. -/
theorem filter_children_of_holds {p : NodeId → Bool} {q : Node → Bool}
    (h : ∀ m, Slots.Holds t.slots m → p m.id = q m) :
    (t.children n.id).filter p = (n.children.filter q).map Node.id := by
  rw [children_of_holds hn, List.filter_map]
  exact congrArg _ (List.filter_congr fun c hc => h c (hn.of_mem hc))

theorem childNodes_of_holds : t.childNodes n.id = n.childNodes.map Node.id :=
  filter_children_of_holds hn fun _ hm => by rw [isToken_of_holds hm]

theorem solidChildren_of_holds : t.solidChildren n.id = n.solidChildren.map Node.id :=
  filter_children_of_holds hn fun _ hm => by rw [isTrivia_of_holds hm]

omit hn in
/-- Below a node of a linked tree every subtree is the one at its name. -/
theorem Linked.node_of_mem_preorder (h : t.Linked) (hm : m ∈ (t.node id).preorder) :
    t.node m.id = m := by
  by_cases hid : id < t.size
  · exact h.node_eq ((h.holds_node hid).of_mem_preorder hm)
  · rw [node_of_size_le (Nat.le_of_not_lt hid), Node.preorder_eq, List.flatMap_nil,
      List.mem_singleton] at hm
    rw [hm, node_of_size_le (Nat.le_of_not_lt hid)]

end Tree

end PhpLint
