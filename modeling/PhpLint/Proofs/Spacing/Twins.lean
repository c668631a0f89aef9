import PhpLint.Proofs.Spacing.Basic
import PhpLint.Proofs.Tree.Versions
import PhpLint.Tree.Expression
import PhpLint.Tree.Statement

/-! What stands at the same place in two trees that differ in white space and comments: each node of
the left tree has a twin in the right one, and the tree around the one answers as the tree around
the other. -/

namespace PhpLint

namespace Tree

variable {t : Tree} {id p : NodeId}

theorem isToken_node (t : Tree) (id : NodeId) : (t.node id).isToken = t.isToken id := by
  rw [node]
  cases t.size <;> rfl

theorem Linked.descendants_eq (h : t.Linked) (hid : id < t.size) :
    t.descendants id = (t.node id).descendants.map Node.id := by
  have hholds := h.holds_node hid
  have hpreorder := h.preorder_eq_ids hholds
  rw [id_node] at hpreorder
  rw [descendants, hpreorder, Node.ids, List.filter_map, Node.descendants]
  exact congrArg _ (List.filter_congr fun m hm => by
    rw [Function.comp_apply, isToken_of_holds (hholds.of_mem_preorder hm)])

theorem filter_solid {cs : List Node} (h : ∀ c ∈ cs, Slots.Holds t.slots c) :
    (cs.map Node.id).filter (!t.isTrivia ·) = (cs.filter (!·.isTrivia)).map Node.id := by
  rw [List.filter_map]
  exact congrArg _ (List.filter_congr fun c hc => by
    rw [Function.comp_apply, isTrivia_of_holds (h c hc)])

/-- The children before a child. -/
theorem Linked.take_index (h : t.Linked) {n c : Node} (hn : Slots.Holds t.slots n)
    {before after : List Node} (heq : n.children = before ++ c :: after) :
    (t.children n.id).take (t.index c.id) = before.map Node.id := by
  have hunder : t.Under c.id n.id := h.under_of_mem hn (by simp [heq])
  have hnodup := h.nodup n.id
  rw [h.index_eq hunder]
  rw [children_of_holds hn, heq, List.map_append, List.map_cons] at hnodup ⊢
  have hnotMem : c.id ∉ before.map Node.id := fun hmem =>
    (List.nodup_append.1 hnodup).2.2 _ hmem _ List.mem_cons_self rfl
  rw [List.idxOf_append_of_notMem hnotMem, List.idxOf_cons_self, Nat.add_zero, List.take_left]

end Tree

/-- Two trees, the right one with white space and comments put in, comments not within the fetch of
a property, and the names that the nodes of the left one have in the right one. -/
structure Spacing where
  before : Tree
  after : Tree
  name : NodeId → NodeId
  sound_before : before.Sound
  sound_after : after.Sound
  root : Node.Spaced (· == .propertyFetch) name true before.rootNode after.rootNode

namespace Spacing

variable {s : Spacing} {n n' m m' : Node} {x x' p p' : NodeId}

/-- A node of the left tree and the one at its place in the right tree. -/
structure Twins (s : Spacing) (n n' : Node) : Prop where
  respaced : Node.Respaced (· == .propertyFetch) s.name n n'
  mem : n ∈ s.before.rootNode.preorder
  mem' : n' ∈ s.after.rootNode.preorder

/-- The same of names. -/
def At (s : Spacing) (x x' : NodeId) : Prop := s.Twins (s.before.node x) (s.after.node x')

theorem twins_rootNode (s : Spacing) : s.Twins s.before.rootNode s.after.rootNode :=
  ⟨⟨true, s.root⟩, Node.mem_preorder_self _, Node.mem_preorder_self _⟩

theorem name_root (s : Spacing) : s.name s.before.root = s.after.root := by
  have hid := (s.twins_rootNode).respaced.id_eq
  rw [Tree.rootNode, Tree.rootNode, Tree.id_node, Tree.id_node] at hid
  exact hid.symm

/-- Different nodes have different names. -/
theorem name_inj (hn : n ∈ s.before.rootNode.preorder) (hm : m ∈ s.before.rootNode.preorder) :
    s.name n.id = s.name m.id ↔ n.id = m.id := by
  refine ⟨fun h => ?_, fun h => by rw [h]⟩
  have hnodup : (s.after.rootNode.preorder.map Node.id).Nodup :=
    s.sound_after.linked.nodup_ids (s.sound_after.linked.holds_node s.sound_after.root_lt_size)
  have hnames := hnodup.sublist (Node.map_name_ids _ s.root)
  exact List.inj_on_of_nodup_map hnames (List.mem_map_of_mem hn) (List.mem_map_of_mem hm) h

namespace Twins

theorem id_eq (h : s.Twins n n') : n'.id = s.name n.id := h.respaced.id_eq

theorem kind_eq (h : s.Twins n n') : n.kind = n'.kind := h.respaced.kind_eq

theorem token_eq (h : s.Twins n n') : n.token = n'.token := h.respaced.token_eq

theorem isToken_eq (h : s.Twins n n') : n.isToken = n'.isToken := h.respaced.isToken_eq

theorem isTrivia_eq (h : s.Twins n n') : n.isTrivia = n'.isTrivia := h.respaced.isTrivia_eq

theorem beq_kind (h : s.Twins n n') (kind : Kind) : (n.kind == kind) = (n'.kind == kind) := by
  rw [h.kind_eq]

theorem id_beq (h : s.Twins n n') (hm : s.Twins m m') : (n.id == m.id) = (n'.id == m'.id) := by
  rw [h.id_eq, hm.id_eq, Bool.eq_iff_iff, beq_iff_eq, beq_iff_eq, name_inj h.mem hm.mem]

theorem at_id (h : s.Twins n n') : s.At n.id n'.id := by
  rw [At, s.sound_before.linked.node_of_mem_preorder h.mem,
    s.sound_after.linked.node_of_mem_preorder h.mem']
  exact h

theorem text_eq (h : s.Twins n n') (hkind : n.kind.holdsWords = true) : n.text = n'.text :=
  h.respaced.elim fun _ h => h.text_eq hkind

theorem squeeze_text_eq (h : s.Twins n n') (hkind : n.kind = .propertyFetch) :
    Text.squeeze n.text = Text.squeeze n'.text :=
  h.respaced.elim fun _ h => h.squeeze_text_eq (beq_iff_eq.2 hkind)

theorem operatorKind?_eq (h : s.Twins n n') : n.operatorKind? = n'.operatorKind? :=
  h.respaced.elim fun _ h => h.operatorKind?_eq

theorem code_eq (h : s.Twins n n') (folds : Bool) : Code.of folds n = Code.of folds n' :=
  h.respaced.elim fun _ h => Node.code_eq n' h folds

/-! Children and subtrees. -/

theorem of_forall₂ {xs ys : List Node}
    (h : List.Forall₂ (Node.Respaced (· == .propertyFetch) s.name) xs ys)
    (hxs : ∀ x ∈ xs, x ∈ s.before.rootNode.preorder)
    (hys : ∀ y ∈ ys, y ∈ s.after.rootNode.preorder) : List.Forall₂ s.Twins xs ys :=
  h.and_mem.imp fun _ _ h => ⟨h.1, hxs _ h.2.1, hys _ h.2.2⟩

theorem filter_children (h : s.Twins n n') {p q : Node → Bool}
    (hpq : ∀ {c c'}, Node.Respaced (· == .propertyFetch) s.name c c' → p c = q c')
    (hblank : ∀ {c}, Node.IsBlank c → q c = false) :
    List.Forall₂ s.Twins (n.children.filter p) (n'.children.filter q) := by
  obtain ⟨_, hspaced⟩ := h.respaced
  obtain ⟨_, hcs⟩ := hspaced.exists_children
  refine of_forall₂ (hcs.filter hpq hblank) (fun c hc => ?_) fun c hc => ?_
  · exact Node.mem_preorder_trans h.mem
      (Node.mem_preorder_of_child (List.mem_of_mem_filter hc) (Node.mem_preorder_self c))
  · exact Node.mem_preorder_trans h.mem'
      (Node.mem_preorder_of_child (List.mem_of_mem_filter hc) (Node.mem_preorder_self c))

theorem filter_preorder (h : s.Twins n n') {p q : Node → Bool}
    (hpq : ∀ {c c'}, Node.Respaced (· == .propertyFetch) s.name c c' → p c = q c')
    (hblank : ∀ {c}, Node.IsBlank c → q c = false) :
    List.Forall₂ s.Twins (n.preorder.filter p) (n'.preorder.filter q) := by
  obtain ⟨_, hspaced⟩ := h.respaced
  refine of_forall₂ (Node.filter_preorder hpq hblank n' hspaced) (fun c hc => ?_) fun c hc => ?_
  · exact Node.mem_preorder_trans h.mem (List.mem_of_mem_filter hc)
  · exact Node.mem_preorder_trans h.mem' (List.mem_of_mem_filter hc)

theorem childNodes (h : s.Twins n n') : List.Forall₂ s.Twins n.childNodes n'.childNodes :=
  h.filter_children (fun hc => by rw [hc.isToken_eq]) fun hb => by rw [hb.token]; rfl

theorem solidChildren (h : s.Twins n n') :
    List.Forall₂ s.Twins n.solidChildren n'.solidChildren :=
  h.filter_children (fun hc => by rw [hc.isTrivia_eq]) fun hb => by rw [hb.trivia]; rfl

theorem childrenOfKind (h : s.Twins n n') (kind : Kind) (hkind : kind.isTrivia = false) :
    List.Forall₂ s.Twins (n.childrenOfKind kind) (n'.childrenOfKind kind) :=
  h.filter_children (fun hc => by rw [hc.kind_eq]) fun hb => by simpa using hb.kind_ne hkind

theorem firstOfKind? (h : s.Twins n n') (kind : Kind) (hkind : kind.isTrivia = false) :
    Option.Rel s.Twins (n.firstOfKind? kind) (n'.firstOfKind? kind) := by
  rw [Node.firstOfKind?, Node.firstOfKind?, ← List.head?_filter, ← List.head?_filter]
  exact (h.childrenOfKind kind hkind).head?

theorem tokenOfKind? (h : s.Twins n n') (kind : Kind) (hkind : kind.isTrivia = false) :
    Option.Rel s.Twins (n.tokenOfKind? kind) (n'.tokenOfKind? kind) := by
  rw [Node.tokenOfKind?, Node.tokenOfKind?, ← List.head?_filter, ← List.head?_filter]
  refine (h.filter_children (fun hc => by rw [hc.isToken_eq, hc.kind_eq]) fun hb => ?_).head?
  simpa using fun _ => hb.kind_ne hkind

theorem descendants (h : s.Twins n n') : List.Forall₂ s.Twins n.descendants n'.descendants :=
  h.filter_preorder (fun hc => by rw [hc.isToken_eq]) fun hb => by rw [hb.token]; rfl

theorem preorderOfKind (h : s.Twins n n') (kind : Kind) (hkind : kind.isTrivia = false) :
    List.Forall₂ s.Twins (n.preorder.filter (·.kind == kind)) (n'.preorder.filter (·.kind == kind)) :=
  h.filter_preorder (fun hc => by rw [hc.kind_eq]) fun hb => by simpa using hb.kind_ne hkind

end Twins

namespace At

theorem twins (h : s.At x x') : s.Twins (s.before.node x) (s.after.node x') := h

theorem kind_eq (h : s.At x x') : s.before.kind x = s.after.kind x' := by
  rw [← Tree.kind_node, ← Tree.kind_node, h.twins.kind_eq]

theorem eq_name (h : s.At x x') : x' = s.name x := by
  have hid := h.twins.id_eq
  rwa [Tree.id_node, Tree.id_node] at hid

theorem within (h : s.At x x') : s.before.Within x s.before.root := by
  have hwithin := s.sound_before.linked.within_of_mem_preorder_node h.twins.mem
  rwa [Tree.id_node] at hwithin

theorem holds (h : s.At x x') : Slots.Holds s.before.slots (s.before.node x) :=
  (s.sound_before.linked.holds_node s.sound_before.root_lt_size).of_mem_preorder h.twins.mem

theorem holds' (h : s.At x x') : Slots.Holds s.after.slots (s.after.node x') :=
  (s.sound_after.linked.holds_node s.sound_after.root_lt_size).of_mem_preorder h.twins.mem'

/-- A child and its twin stand behind the same children, white space and comments aside. -/
theorem exists_split (h : s.At p p') (hx : s.before.Under x p) :
    ∃ (pre post pre' post' : List Node) (c c' : Node) (comments : Bool), c.id = x ∧
      (s.before.node p).children = pre ++ c :: post ∧
      (s.after.node p').children = pre' ++ c' :: post' ∧ s.Twins c c' ∧
      Node.SpacedAll (· == .propertyFetch) s.name comments pre pre' := by
  have hmem : x ∈ s.before.children (s.before.node p).id := by
    rw [Tree.id_node]
    exact s.sound_before.linked.mem_children.2 hx
  rw [Tree.children_of_holds h.holds] at hmem
  obtain ⟨c, hc, rfl⟩ := List.mem_map.1 hmem
  obtain ⟨_, hspaced⟩ := h.twins.respaced
  obtain ⟨_, hcs⟩ := hspaced.exists_children
  obtain ⟨pre, post, hsplit⟩ := List.append_of_mem hc
  rw [hsplit] at hcs
  obtain ⟨pre', c', post', hsplit', hpre, hcc', -⟩ := hcs.split
  have hc' : c' ∈ (s.after.node p').children := hsplit' ▸ List.mem_append_right _ List.mem_cons_self
  refine ⟨pre, post, pre', post', c, c', _, rfl, hsplit, hsplit', ⟨hcc', ?_, ?_⟩, hpre⟩
  · exact Node.mem_preorder_trans h.twins.mem
      (Node.mem_preorder_of_child hc (Node.mem_preorder_self c))
  · exact Node.mem_preorder_trans h.twins.mem'
      (Node.mem_preorder_of_child hc' (Node.mem_preorder_self c'))

/-- The twins of children are children. -/
theorem child (h : s.At p p') (hx : s.before.Under x p) :
    s.At x (s.name x) ∧ s.after.Under (s.name x) p' := by
  obtain ⟨_, _, _, _, c, c', _, rfl, -, hsplit', htwins, -⟩ := h.exists_split hx
  have hat := htwins.at_id
  have hunder := s.sound_after.linked.under_of_mem h.holds' (c := c') (by simp [hsplit'])
  rw [htwins.id_eq] at hat hunder
  rw [Tree.id_node] at hunder
  exact ⟨hat, hunder⟩

theorem root (s : Spacing) : s.At s.before.root s.after.root := s.twins_rootNode

/-- Every node has a twin. -/
theorem of_within (hx : s.before.Within x s.before.root) : s.At x (s.name x) := by
  induction hx using Relation.ReflTransGen.head_induction_on with
  | refl =>
    rw [s.name_root]
    exact root s
  | head hunder _ ih => exact (ih.child hunder).1

/-- The twins of parents are parents. -/
theorem parent? (h : s.At x x') : Option.Rel s.At (s.before.parent? x) (s.after.parent? x') := by
  rw [h.eq_name]
  rcases h.within.eq_or_under with rfl | ⟨p, hp, hwithin⟩
  · rw [s.name_root, s.sound_before.parent?_root, s.sound_after.parent?_root]
    exact .none
  · have hat := of_within hwithin
    have hunder := (hat.child hp).2
    rw [Tree.Under] at hp hunder
    rw [hp, hunder]
    exact .some hat

theorem ancestors (h : s.At x x') :
    List.Forall₂ s.At (s.before.ancestors x) (s.after.ancestors x') := by
  rw [h.eq_name]
  have hwithin := h.within
  clear h
  induction hwithin using Relation.ReflTransGen.head_induction_on with
  | refl =>
    rw [s.name_root, Tree.ancestors_of_parent?_eq_none s.sound_before.parent?_root,
      Tree.ancestors_of_parent?_eq_none s.sound_after.parent?_root]
    exact .nil
  | head hunder hwithin ih =>
    have hat := of_within hwithin
    rw [s.sound_before.linked.ancestors_of_under hunder,
      s.sound_after.linked.ancestors_of_under (hat.child hunder).2]
    exact .cons hat ih

theorem localAncestors (h : s.At x x') :
    List.Forall₂ s.At (s.before.localAncestors x) (s.after.localAncestors x') :=
  h.ancestors.takeWhile fun ha => by rw [ha.kind_eq]

theorem enclosingFunction? (h : s.At x x') :
    Option.Rel s.At (s.before.enclosingFunction? x) (s.after.enclosingFunction? x') :=
  h.ancestors.find? fun ha => by rw [ha.kind_eq]

theorem enclosingClass? (h : s.At x x') :
    Option.Rel s.At (s.before.enclosingClass? x) (s.after.enclosingClass? x') :=
  h.ancestors.find? fun ha => by rw [ha.kind_eq]

theorem descendants (s : Spacing) : List.Forall₂ s.At (s.before.descendants s.before.root)
    (s.after.descendants s.after.root) := by
  rw [s.sound_before.linked.descendants_eq s.sound_before.root_lt_size,
    s.sound_after.linked.descendants_eq s.sound_after.root_lt_size, List.forall₂_map_left_iff,
    List.forall₂_map_right_iff]
  exact (s.twins_rootNode).descendants.imp fun _ _ => Twins.at_id

theorem isToken_eq (h : s.At x x') : s.before.isToken x = s.after.isToken x' := by
  rw [← Tree.isToken_node, ← Tree.isToken_node, h.twins.isToken_eq]

theorem previousStatement? (h : s.At x x') :
    Option.Rel s.At (s.before.previousStatement? x) (s.after.previousStatement? x') := by
  rw [Tree.previousStatement?, Tree.previousStatement?]
  rcases h.parent?.eq_or with ⟨hp, hp'⟩ | ⟨p, p', hp, hp', hat⟩
  · rw [hp, hp']
    exact .none
  · obtain ⟨pre, post, pre', post', c, c', _, rfl, hsplit, hsplit', htwins, hpre⟩ :=
      hat.exists_split hp
    have hx' : c'.id = x' := by rw [htwins.id_eq, h.eq_name]
    have htake := s.sound_before.linked.take_index hat.holds hsplit
    have htake' := s.sound_after.linked.take_index hat.holds' hsplit'
    rw [Tree.id_node] at htake htake'
    have hmem : ∀ m ∈ pre, m ∈ (s.before.node p).children := fun m hm => by simp [hsplit, hm]
    have hmem' : ∀ m ∈ pre', m ∈ (s.after.node p').children := fun m hm => by simp [hsplit', hm]
    have hsolid : List.Forall₂ s.At ((pre.map Node.id).filter (!s.before.isTrivia ·))
        ((pre'.map Node.id).filter (!s.after.isTrivia ·)) := by
      rw [Tree.filter_solid fun m hm => hat.holds.of_mem (hmem m hm),
        Tree.filter_solid fun m hm => hat.holds'.of_mem (hmem' m hm), List.forall₂_map_left_iff,
        List.forall₂_map_right_iff]
      refine (Twins.of_forall₂ hpre.solid (fun m hm => ?_) fun m hm => ?_).imp fun _ _ => Twins.at_id
      · exact Node.mem_preorder_trans hat.twins.mem (Node.mem_preorder_of_child
          (hmem m (List.mem_of_mem_filter hm)) (Node.mem_preorder_self m))
      · exact Node.mem_preorder_trans hat.twins.mem' (Node.mem_preorder_of_child
          (hmem' m (List.mem_of_mem_filter hm)) (Node.mem_preorder_self m))
    rw [hp, hp', Option.bind_some, Option.bind_some, htake, ← hx', htake', ← List.head?_filter,
      ← List.head?_filter, List.filter_reverse, List.filter_reverse]
    exact (List.rel_reverse hsolid).head?.filter fun hm => by rw [hm.isToken_eq]

theorem foldsCase_eq (h : s.At x x') : s.before.foldsCase x = s.after.foldsCase x' := by
  rw [Tree.foldsCase, Tree.foldsCase]
  rcases h.parent?.eq_or with ⟨hp, hp'⟩ | ⟨p, p', hp, hp', hat⟩
  · rw [hp, hp']
  · have hnodes := Tree.childNodes_of_holds hat.holds
    have hnodes' := Tree.childNodes_of_holds hat.holds'
    rw [Tree.id_node] at hnodes hnodes'
    rw [hp, hp']
    dsimp only
    rw [hnodes, hnodes', hat.kind_eq, hat.twins.operatorKind?_eq, List.head?_map, List.head?_map]
    rcases hat.twins.childNodes.head?.eq_or with ⟨hc, hc'⟩ | ⟨c, c', hc, hc', htwins⟩
    · rw [hc, hc']
      rfl
    · have hid := htwins.id_beq h.twins
      rw [Tree.id_node, Tree.id_node] at hid
      rw [hc, hc']
      simpa using congrArg _ hid

/-- Twins have the same code. -/
theorem code_eq (h : s.At x x') : s.before.code x = s.after.code x' := by
  rw [Tree.code, Tree.code, h.foldsCase_eq, h.twins.code_eq]

end At

end Spacing

end PhpLint
