import PhpLint.Proofs.Concrete.Leaves

/-! The tokens and nodes of the tree that is built from a plain one are those of the plain one. -/

namespace PhpLint

/-- The tokens of a tree with their kinds, in order. -/
def Tree.words (t : Tree) : List (Kind × String) :=
  (t.preorder t.root).filterMap fun id => (t.tokenText? id).map (t.kind id, ·)

namespace Node

variable {n m : Node}

/-- A node as the token it is, if it is one. -/
def word? (n : Node) : Option (Kind × String) := n.token.map (n.kind, ·)

theorem filterMap_word?_preorder (h : n.Bare) : n.preorder.filterMap word? = n.green.leaves := by
  induction n using Node.induction with
  | mk id kind text children ih =>
    have hall : ∀ ns : List Node, (∀ n ∈ ns, n ∈ children) →
        (ns.flatMap fun c => c.preorder.filterMap word?) = Green.leavesAll (greenAll ns) := by
      intro ns
      induction ns with
      | nil => exact fun _ => rfl
      | cons n ns ihs =>
        intro hns
        rw [List.forall_mem_cons] at hns
        rw [List.flatMap_cons, ih n hns.1 (h.of_mem hns.1), ihs hns.2, greenAll, Green.leavesAll]
    rw [preorder_eq, List.filterMap_cons, List.filterMap_flatMap]
    cases text with
    | none => exact hall children fun _ hc => hc
    | some text =>
      have hnil : children = [] := h _ (preorder_eq _ ▸ List.mem_cons_self) rfl
      rw [hnil]
      rfl

theorem mem_leaves_green (h : n.Bare) (hm : m ∈ n.preorder) {text : String}
    (htext : m.token = some text) : (m.kind, text) ∈ n.green.leaves := by
  rw [← filterMap_word?_preorder h, List.mem_filterMap]
  exact ⟨m, hm, by rw [word?, htext]; rfl⟩

theorem greenAll_eq_map (ns : List Node) : greenAll ns = ns.map green := by
  induction ns with
  | nil => rfl
  | cons n ns ih => rw [greenAll, ih, List.map_cons]

theorem mem_nodes_green (h : n.Bare) (hm : m ∈ n.preorder) (htoken : m.token = none) :
    (m.kind, m.children.map green) ∈ n.green.nodes := by
  induction n using Node.induction with
  | mk id kind text children ih =>
    cases text with
    | some text =>
      have hnil : children = [] := h _ (mem_preorder_self _) rfl
      rw [preorder_eq] at hm
      rcases List.mem_cons.1 hm with rfl | hm
      · cases htoken
      · simp [hnil] at hm
    | none =>
      rw [green, Green.nodes, greenAll_eq_map]
      rw [preorder_eq] at hm
      rcases List.mem_cons.1 hm with rfl | hm
      · exact List.mem_cons_self
      · refine List.mem_cons_of_mem _ ?_
        obtain ⟨c, hc, hm⟩ := List.mem_flatMap.1 hm
        rw [Green.nodesAll_eq_flatMap, List.mem_flatMap]
        exact ⟨c.green, List.mem_map_of_mem hc, ih c hc (h.of_mem hc) hm⟩

end Node

namespace Green

variable {kind : Kind} {gs : List Green}

/-- Every name in the tree of a node stands for a node of it. -/
theorem exists_mem_preorder {id : NodeId}
    (hid : id ∈ (node kind gs).toTree.preorder (node kind gs).toTree.root) :
    ∃ m ∈ (node kind gs).toTree.rootNode.preorder, m.id = id ∧
      Slots.Holds (node kind gs).toTree.slots m := by
  rw [preorder_root, Node.ids, List.mem_map] at hid
  obtain ⟨m, hm, rfl⟩ := hid
  exact ⟨m, hm, rfl, (holds_rootNode _).of_mem_preorder hm⟩

theorem words_toTree (kind : Kind) (gs : List Green) :
    (node kind gs).toTree.words = leavesAll gs := by
  rw [Tree.words, preorder_root, Node.ids, List.filterMap_map]
  have hword : ∀ m ∈ (node kind gs).toTree.rootNode.preorder,
      ((fun id => ((node kind gs).toTree.tokenText? id).map ((node kind gs).toTree.kind id, ·)) ∘
        Node.id) m = m.word? := by
    intro m hm
    have hm := (holds_rootNode _).of_mem_preorder hm
    simp only [Function.comp, Node.word?, Tree.tokenText?, Tree.kind, Tree.slot_eq_get, hm.text_eq,
      hm.kind_eq]
  rw [List.filterMap_congr hword]
  exact (Node.filterMap_word?_preorder (rootNode_bare _)).trans
    (by rw [green_rootNode, leaves])

theorem exists_mem_nodes {id : NodeId}
    (hid : id ∈ (node kind gs).toTree.preorder (node kind gs).toTree.root)
    (htoken : (node kind gs).toTree.tokenText? id = none) :
    ∃ cs, ((node kind gs).toTree.kind id, cs) ∈ (node kind gs).nodes := by
  obtain ⟨m, hm, rfl, hholds⟩ := exists_mem_preorder hid
  have hnodes := Node.mem_nodes_green (rootNode_bare _) hm (hholds.text_eq ▸ htoken)
  rw [green_rootNode] at hnodes
  exact ⟨_, (show (node kind gs).toTree.kind m.id = m.kind from hholds.kind_eq) ▸ hnodes⟩

/-- The kind of a token or node. -/
def kindOf : Green → Kind
  | token kind _ | node kind _ => kind

theorem kindOf_green (n : Node) : n.green.kindOf = n.kind := by
  obtain ⟨id, kind, text, children⟩ := n
  cases text <;> rfl

/-- The solid nodes right below the root are those of the plain tree. -/
theorem length_solidChildren_toTree (kind : Kind) (gs : List Green) :
    ((node kind gs).toTree.solidChildren (node kind gs).toTree.root).length =
      (gs.filter (!·.kindOf.isTrivia)).length := by
  have hholds := holds_rootNode (node kind gs)
  have hchildren := hholds.children_eq
  have hgreen := green_rootNode kind gs
  rw [show (node kind gs).toTree.rootNode.id = (node kind gs).toTree.root from Tree.id_node ..]
    at hchildren
  generalize (node kind gs).toTree.rootNode = n at *
  have hgs : gs = n.children.map Node.green := by
    obtain ⟨id, nkind, text, children⟩ := n
    cases text with
    | some text => cases hgreen
    | none =>
      rw [Node.green, Node.greenAll_eq_map] at hgreen
      exact (node.inj hgreen).2.symm
  have hkind : ∀ m ∈ n.children, (node kind gs).toTree.isTrivia m.id = m.green.kindOf.isTrivia := by
    intro m hm
    rw [kindOf_green]
    exact congrArg Kind.isTrivia (hholds.of_mem hm).kind_eq
  rw [Tree.solidChildren, Tree.children, Tree.slot_eq_get, hchildren, List.filter_map,
    List.length_map]
  conv_rhs => rw [hgs, List.filter_map, List.length_map]
  exact congrArg List.length (List.filter_congr fun m hm => congrArg not (hkind m hm))

end Green

end PhpLint
