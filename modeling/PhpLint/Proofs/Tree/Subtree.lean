import Mathlib.Algebra.Order.BigOperators.Group.List
import Mathlib.Algebra.Order.Group.Nat
import Mathlib.Data.List.Perm.Subperm
import PhpLint.Proofs.Tree.Links
import PhpLint.Tree.Node

/-! Subtrees as values. In a linked arena every node is the top of a finite subtree, the walk
with a stack lists exactly the nodes that stand within its start, each once, and the number of
slots is always fuel enough. -/

namespace PhpLint

namespace Node

@[elab_as_elim]
theorem induction {motive : Node → Prop}
    (mk : ∀ id kind token children, (∀ c ∈ children, motive c) → motive ⟨id, kind, token, children⟩)
    (n : Node) : motive n := by
  obtain ⟨id, kind, token, children⟩ := n
  exact mk id kind token children fun c hc => induction mk c
termination_by sizeOf n
decreasing_by exact sizeOf_lt_of_mem (n := ⟨id, kind, token, children⟩) hc

theorem preorderAll_eq_flatMap (ns : List Node) : preorderAll ns = ns.flatMap preorder := by
  induction ns with
  | nil => rfl
  | cons n ns ih => rw [preorderAll, ih, List.flatMap_cons]

theorem preorder_eq (n : Node) : n.preorder = n :: n.children.flatMap preorder := by
  obtain ⟨id, kind, token, children⟩ := n
  rw [preorder, preorderAll_eq_flatMap]

theorem mem_preorder_self (n : Node) : n ∈ n.preorder := by
  rw [preorder_eq]
  exact List.mem_cons_self

theorem mem_preorder_of_child {n c m : Node} (hc : c ∈ n.children) (hm : m ∈ c.preorder) :
    m ∈ n.preorder := by
  rw [preorder_eq]
  exact List.mem_cons_of_mem _ (List.mem_flatMap.2 ⟨c, hc, hm⟩)

theorem mem_preorder_trans {n m k : Node} (hm : m ∈ n.preorder) (hk : k ∈ m.preorder) :
    k ∈ n.preorder := by
  induction n using Node.induction with
  | mk id kind token children ih =>
    rw [preorder_eq, List.mem_cons, List.mem_flatMap] at hm
    obtain rfl | ⟨c, hc, hm⟩ := hm
    · exact hk
    · exact mem_preorder_of_child hc (ih c hc hm)

/-- The names of the nodes of a subtree, each before those of its children. -/
def ids (n : Node) : List NodeId := n.preorder.map Node.id

theorem ids_eq (n : Node) : n.ids = n.id :: n.children.flatMap ids := by
  rw [ids, preorder_eq, List.map_cons, List.map_flatMap]
  rfl

theorem id_mem_ids (n : Node) : n.id ∈ n.ids := by
  rw [ids_eq]
  exact List.mem_cons_self

theorem mem_ids {n : Node} {x : NodeId} : x ∈ n.ids ↔ x = n.id ∨ ∃ c ∈ n.children, x ∈ c.ids := by
  rw [ids_eq, List.mem_cons, List.mem_flatMap]

theorem length_ids_lt_of_mem {n c : Node} (h : c ∈ n.children) : c.ids.length < n.ids.length := by
  have hc : c.ids.length ∈ n.children.map fun c => c.ids.length := List.mem_map_of_mem h
  have := List.le_sum_of_mem hc
  rw [n.ids_eq, List.length_cons, List.length_flatMap]
  exact Nat.lt_succ_of_le this

theorem filterMap_token_preorder (n : Node) :
    n.preorder.filterMap Node.token =
      n.token.toList ++ n.children.flatMap fun c => c.preorder.filterMap Node.token := by
  rw [preorder_eq, List.filterMap_cons, List.filterMap_flatMap]
  cases n.token <;> rfl

end Node

/-- The slots hold the subtree `n`: every node of it stands in the slot of its name, with its kind,
its text and the names of its children. -/
inductive Slots.Holds (slots : Array Slot) : Node → Prop
  | mk {id : NodeId} {kind : Kind} {token : Option String} {children : List Node} :
    id < slots.size → (Slots.get slots id).kind = kind → (Slots.get slots id).text = token →
    (Slots.get slots id).children = children.map Node.id →
    (∀ c ∈ children, Holds slots c) → Holds slots ⟨id, kind, token, children⟩

namespace Slots.Holds

variable {slots slots' : Array Slot} {n c : Node}

theorem lt_size (h : Holds slots n) : n.id < slots.size := by
  obtain ⟨hid, -, -, -, -⟩ := h
  exact hid

theorem children_eq (h : Holds slots n) : (get slots n.id).children = n.children.map Node.id := by
  obtain ⟨-, -, -, hc, -⟩ := h
  exact hc

theorem text_eq (h : Holds slots n) : (get slots n.id).text = n.token := by
  obtain ⟨-, -, ht, -, -⟩ := h
  exact ht

theorem kind_eq (h : Holds slots n) : (get slots n.id).kind = n.kind := by
  obtain ⟨-, hk, -, -, -⟩ := h
  exact hk

theorem of_mem (h : Holds slots n) (hc : c ∈ n.children) : Holds slots c := by
  obtain ⟨-, -, -, -, h⟩ := h
  exact h c hc

theorem of_mem_preorder (h : Holds slots n) {m : Node} (hm : m ∈ n.preorder) : Holds slots m := by
  induction n using Node.induction with
  | mk id kind token children ih =>
    rw [Node.preorder_eq, List.mem_cons, List.mem_flatMap] at hm
    rcases hm with rfl | ⟨c, hc, hm⟩
    · exact h
    · exact ih c hc (h.of_mem hc) hm

theorem get_alloc_size (slots : Array Slot) (kind : Kind) (text : Option String)
    (children : List NodeId) (attached : Bool) :
    get (alloc slots kind text children attached) slots.size =
      ⟨kind, text, none, children, 0, 0, attached⟩ := by
  rw [alloc, get_push, size_adopt, if_pos rfl]

/-- A new slot leaves the subtrees that are held as they are, its own children included. -/
theorem alloc (h : Holds slots n) (kind : Kind) (text : Option String) (children : List NodeId)
    (attached : Bool) : Holds (Slots.alloc slots kind text children attached) n := by
  have hget : ∀ {β : Type} (g : Slot → β),
      (∀ s parent index, g { s with parent, index } = g s) → ∀ id < slots.size,
      g (get (Slots.alloc slots kind text children attached) id) = g (get slots id) := by
    intro β g hg id hid
    rw [Slots.alloc, get_push, size_adopt, if_neg hid.ne]
    exact proj_foldl_modify g (fun _ s => hg s _ _) slots _ id
  induction h with
  | mk hid hkind htext hchildren _ ih =>
    refine mk ?_ ?_ ?_ ?_ ih
    · rw [size_alloc]
      exact Nat.lt_succ_of_lt hid
    · exact (hget Slot.kind (fun _ _ _ => rfl) _ hid).trans hkind
    · exact (hget Slot.text (fun _ _ _ => rfl) _ hid).trans htext
    · exact (hget Slot.children (fun _ _ _ => rfl) _ hid).trans hchildren

theorem alloc_new {kind : Kind} {text : Option String} {ns : List Node}
    (h : ∀ n ∈ ns, Holds slots n) (attached : Bool) :
    Holds (Slots.alloc slots kind text (ns.map Node.id) attached) ⟨slots.size, kind, text, ns⟩ := by
  refine mk ?_ ?_ ?_ ?_ fun n hn => (h n hn).alloc ..
  · rw [size_alloc]
    exact Nat.lt_succ_self _
  all_goals rw [get_alloc_size]

end Slots.Holds

namespace Tree

variable {t : Tree} {top x p : NodeId} {n : Node}

namespace Linked

/-- Every node is the top of a finite subtree. -/
theorem exists_holds (h : t.Linked) (htop : top < t.size) :
    ∃ n, Slots.Holds t.slots n ∧ n.id = top := by
  induction top using h.wellFounded.induction with
  | _ top ih =>
    have below : ∀ ids : List NodeId, (∀ c ∈ ids, c ∈ t.children top) →
        ∃ ns : List Node, (∀ n ∈ ns, Slots.Holds t.slots n) ∧ ns.map Node.id = ids := by
      intro ids hids
      induction ids with
      | nil => exact ⟨[], by simp, rfl⟩
      | cons c ids ihs =>
        have hu := h.mem_children.1 (hids c List.mem_cons_self)
        obtain ⟨n, hn, rfl⟩ := ih c hu hu.lt_size
        obtain ⟨ns, hns, rfl⟩ := ihs fun c hc => hids c (List.mem_cons_of_mem _ hc)
        exact ⟨n :: ns, List.forall_mem_cons.2 ⟨hn, hns⟩, rfl⟩
    obtain ⟨ns, hns, hids⟩ := below (t.children top) fun _ hc => hc
    exact ⟨⟨top, t.kind top, t.tokenText? top, ns⟩, .mk htop rfl rfl hids.symm hns, rfl⟩

theorem under_of_mem (h : t.Linked) (hn : Slots.Holds t.slots n) {c : Node} (hc : c ∈ n.children) :
    t.Under c.id n.id := by
  apply h.mem_children.1
  rw [children, slot_eq_get, hn.children_eq]
  exact List.mem_map_of_mem hc

theorem within_of_mem_ids (h : t.Linked) (hn : Slots.Holds t.slots n) :
    x ∈ n.ids → t.Within x n.id := by
  induction n using Node.induction with
  | mk id kind token children ih =>
    intro hx
    rcases Node.mem_ids.1 hx with rfl | ⟨c, hc, hx⟩
    · exact Within.refl t _
    · exact (ih c hc (hn.of_mem hc) hx).trans (Within.of_under (h.under_of_mem hn hc))

theorem within_of_mem_preorder (h : t.Linked) (hn : Slots.Holds t.slots n) {m : Node}
    (hm : m ∈ n.preorder) : t.Within m.id n.id :=
  h.within_of_mem_ids hn (List.mem_map_of_mem hm)

theorem mem_ids_of_under (h : t.Linked) (hn : Slots.Holds t.slots n) (hu : t.Under x p) :
    p ∈ n.ids → x ∈ n.ids := by
  induction n using Node.induction with
  | mk id kind token children ih =>
    intro hp
    rcases Node.mem_ids.1 hp with rfl | ⟨c, hc, hp⟩
    · have hx := h.mem_children.2 hu
      rw [Tree.children, slot_eq_get, hn.children_eq] at hx
      obtain ⟨c, hc, rfl⟩ := List.mem_map.1 hx
      exact Node.mem_ids.2 (.inr ⟨c, hc, Node.id_mem_ids c⟩)
    · exact Node.mem_ids.2 (.inr ⟨c, hc, ih c hc (hn.of_mem hc) hp⟩)

theorem mem_ids (h : t.Linked) (hn : Slots.Holds t.slots n) : x ∈ n.ids ↔ t.Within x n.id := by
  refine ⟨h.within_of_mem_ids hn, fun hx => ?_⟩
  induction hx using Relation.ReflTransGen.head_induction_on with
  | refl => exact Node.id_mem_ids n
  | head hu _ ih => exact h.mem_ids_of_under hn hu ih

/-- A node is met once: under two children of one node nothing stands in common. -/
theorem nodup_ids (h : t.Linked) (hn : Slots.Holds t.slots n) : n.ids.Nodup := by
  induction n using Node.induction with
  | mk id kind token children ih =>
    have under : ∀ c ∈ children, t.Under c.id id := fun c hc => h.under_of_mem hn hc
    have apart : ∀ c ∈ children, ∀ d ∈ children, t.Within c.id d.id → c.id = d.id := by
      intro c hc d hd hw
      by_contra hne
      exact h.not_within_of_under (under d hd) (hw.of_parent (under c hc) hne)
    have hids : (children.map Node.id).Nodup := by
      have := h.nodup id
      rwa [Tree.children, slot_eq_get, hn.children_eq] at this
    rw [Node.ids_eq, List.nodup_cons, List.nodup_flatMap]
    refine ⟨fun hid => ?_, fun c hc => ih c hc (hn.of_mem hc), ?_⟩
    · obtain ⟨c, hc, hid⟩ := List.mem_flatMap.1 hid
      exact h.not_within_of_under (under c hc) (h.within_of_mem_ids (hn.of_mem hc) hid)
    · refine (List.pairwise_map.1 hids).imp_of_mem fun {c d} hc hd hne x hxc hxd => ?_
      have hxc := h.within_of_mem_ids (hn.of_mem hc) hxc
      have hxd := h.within_of_mem_ids (hn.of_mem hd) hxd
      rcases hxc.total hxd with hw | hw
      · exact hne (apart c hc d hd hw)
      · exact hne (apart d hd c hc hw).symm

theorem length_ids_le (h : t.Linked) (hn : Slots.Holds t.slots n) : n.ids.length ≤ t.size := by
  have hsub : n.ids ⊆ List.range t.size := fun x hx =>
    List.mem_range.2 (((h.mem_ids hn).1 hx).lt_size hn.lt_size)
  simpa using (List.subperm_of_subset (h.nodup_ids hn) hsub).length_le

end Linked

/-- The walk takes a subtree off its stack whole. -/
theorem walk_of_holds (hn : Slots.Holds t.slots n) {fuel : Nat} (stack : List NodeId)
    (hfuel : n.ids.length ≤ fuel) :
    t.walk fuel (n.id :: stack) = n.ids ++ t.walk (fuel - n.ids.length) stack := by
  induction n using Node.induction generalizing fuel stack with
  | mk id kind token children ih =>
    have hall : ∀ (ns : List Node) (fuel : Nat), (∀ n ∈ ns, n ∈ children) →
        (ns.flatMap Node.ids).length ≤ fuel →
        t.walk fuel (ns.map Node.id ++ stack) =
          ns.flatMap Node.ids ++ t.walk (fuel - (ns.flatMap Node.ids).length) stack := by
      intro ns
      induction ns with
      | nil => intros; rfl
      | cons c ns ihs =>
        intro fuel hmem hfuel
        have hc := hmem c List.mem_cons_self
        rw [List.flatMap_cons, List.length_append] at hfuel
        rw [List.map_cons, List.cons_append, ih c hc (hn.of_mem hc) _ (by omega),
          ihs _ (fun n hn => hmem n (List.mem_cons_of_mem c hn)) (by omega), List.flatMap_cons,
          List.append_assoc, List.length_append, Nat.sub_sub]
    have hchildren := hn.children_eq
    have hids : (⟨id, kind, token, children⟩ : Node).ids = id :: children.flatMap Node.ids :=
      Node.ids_eq _
    rw [hids, List.length_cons] at hfuel ⊢
    obtain ⟨fuel, rfl⟩ := Nat.exists_eq_add_of_le' (Nat.one_le_of_lt hfuel)
    rw [walk, Tree.children, slot_eq_get, hchildren, hall children fuel (fun _ h => h) (by omega),
      Nat.add_sub_add_right, List.cons_append]

namespace Linked

theorem preorder_eq_ids (h : t.Linked) (hn : Slots.Holds t.slots n) : t.preorder n.id = n.ids := by
  rw [preorder, walk_of_holds hn [] (h.length_ids_le hn)]
  cases t.size - n.ids.length <;> rw [walk, List.append_nil]

/-- The walk from a node meets exactly what stands within it. -/
theorem mem_preorder (h : t.Linked) (htop : top < t.size) :
    x ∈ t.preorder top ↔ t.Within x top := by
  obtain ⟨n, hn, rfl⟩ := h.exists_holds htop
  rw [h.preorder_eq_ids hn, h.mem_ids hn]

theorem nodup_preorder (h : t.Linked) (htop : top < t.size) : (t.preorder top).Nodup := by
  obtain ⟨n, hn, rfl⟩ := h.exists_holds htop
  exact h.preorder_eq_ids hn ▸ h.nodup_ids hn

end Linked

theorem id_node (t : Tree) (id : NodeId) : (t.node id).id = id := by
  rw [node]
  cases t.size <;> rfl

theorem kind_node (t : Tree) (id : NodeId) : (t.node id).kind = t.kind id := by
  rw [node]
  cases t.size <;> rfl

theorem nodeWithin_of_holds (hn : Slots.Holds t.slots n) {depth : Nat}
    (hdepth : n.ids.length ≤ depth) : t.nodeWithin depth n.id = n := by
  induction n using Node.induction generalizing depth with
  | mk id kind token children ih =>
    have hpos : 0 < (⟨id, kind, token, children⟩ : Node).ids.length :=
      List.length_pos_of_mem (Node.id_mem_ids _)
    obtain ⟨depth, rfl⟩ := Nat.exists_eq_add_of_le' (Nat.le_trans hpos hdepth)
    have hsub : ∀ c ∈ children, t.nodeWithin depth c.id = c := fun c hc => by
      have hlt := Node.length_ids_lt_of_mem (n := ⟨id, kind, token, children⟩) hc
      exact ih c hc (hn.of_mem hc) (by omega)
    have hmap : children.map (t.nodeWithin depth ∘ Node.id) = children :=
      (List.map_congr_left hsub).trans (List.map_id children)
    rw [nodeWithin, Tree.kind, tokenText?, Tree.children, slot_eq_get, hn.kind_eq, hn.text_eq,
      hn.children_eq, List.map_map, hmap]

theorem Linked.node_eq (h : t.Linked) (hn : Slots.Holds t.slots n) : t.node n.id = n :=
  nodeWithin_of_holds hn (h.length_ids_le hn)

/-- The walk reads off the tokens of the subtree. -/
theorem filterMap_tokenText?_ids (hn : Slots.Holds t.slots n) :
    n.ids.filterMap t.tokenText? = n.preorder.filterMap Node.token := by
  rw [Node.ids, List.filterMap_map]
  exact List.filterMap_congr fun m hm => (hn.of_mem_preorder hm).text_eq

theorem Linked.holds_node (h : t.Linked) (htop : top < t.size) :
    Slots.Holds t.slots (t.node top) := by
  obtain ⟨n, hn, rfl⟩ := h.exists_holds htop
  rwa [h.node_eq hn]

end Tree

end PhpLint
