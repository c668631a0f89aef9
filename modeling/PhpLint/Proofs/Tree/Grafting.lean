import PhpLint.Proofs.Tree.Reachable

/-! Copies of subtrees. A copy has other names than what it is a copy of and is the same in all else;
its nodes are the slots that are new, each once, the topmost one last, and the slots that were there
do not notice. -/

namespace PhpLint

namespace Node

mutual

/-- The subtree with all names struck out. -/
def nameless : Node → Node
  | ⟨_, kind, token, children⟩ => ⟨0, kind, token, namelessAll children⟩

def namelessAll : List Node → List Node
  | [] => []
  | n :: ns => nameless n :: namelessAll ns

end

theorem namelessAll_eq_map (ns : List Node) : namelessAll ns = ns.map nameless := by
  induction ns with
  | nil => rfl
  | cons n ns ih => rw [namelessAll, ih, List.map_cons]

theorem nameless_mk (id : NodeId) (kind : Kind) (token : Option String) (children : List Node) :
    (⟨id, kind, token, children⟩ : Node).nameless = ⟨0, kind, token, children.map nameless⟩ := by
  rw [nameless, namelessAll_eq_map]

theorem text_nameless (n : Node) : n.nameless.text = n.text := by
  induction n using Node.induction with
  | mk id kind token children ih =>
    have hall : ∀ ns : List Node, (∀ n ∈ ns, n ∈ children) →
        textAll (ns.map nameless) = textAll ns := by
      intro ns
      induction ns with
      | nil => exact fun _ => rfl
      | cons n ns ihs =>
        intro hns
        rw [List.forall_mem_cons] at hns
        rw [List.map_cons, textAll, textAll, ih n hns.1, ihs hns.2]
    rw [nameless_mk, text, text, hall children fun _ hc => hc]

end Node

namespace Slots

variable {slots slots₁ slots' : Array Slot} {n m : Node} {ns ms : List Node}

/-- `slots'` is `slots` with copies `ms` of `ns` behind, which take up all that is new. -/
structure Copied (slots slots' : Array Slot) (ns ms : List Node) : Prop where
  nameless_eq : ms.map Node.nameless = ns.map Node.nameless
  holds : ∀ m ∈ ms, Holds slots' m
  keeps : ∀ {m}, Holds slots m → Holds slots' m
  size_eq : slots'.size = slots.size + (ns.flatMap Node.ids).length
  mem_ids : ∀ x : Nat, x ∈ ms.flatMap Node.ids ↔ slots.size ≤ x ∧ x < slots'.size

namespace Copied

theorem nil (slots : Array Slot) : Copied slots slots [] [] where
  nameless_eq := rfl
  holds := nofun
  keeps := id
  size_eq := rfl
  mem_ids := fun x => by simp

theorem cons (h : Copied slots slots₁ [n] [m]) (h' : Copied slots₁ slots' ns ms) :
    Copied slots slots' (n :: ns) (m :: ms) where
  nameless_eq := congrArg₂ (· ++ ·) h.nameless_eq h'.nameless_eq
  holds := List.forall_mem_cons.2 ⟨h'.keeps (h.holds m List.mem_cons_self), h'.holds⟩
  keeps := fun hm => h'.keeps (h.keeps hm)
  size_eq := by
    have hn := h.size_eq
    rw [List.flatMap_singleton] at hn
    rw [h'.size_eq, hn, List.flatMap_cons, List.length_append, Nat.add_assoc]
  mem_ids := fun x => by
    have hm := h.mem_ids x
    have hsize := h.size_eq
    have hsize' := h'.size_eq
    rw [List.flatMap_singleton] at hm
    rw [List.flatMap_cons, List.mem_append, hm, h'.mem_ids]
    omega

/-- The node above the copies gets the slot behind them. -/
theorem node (h : Copied slots slots' ns ms) (id : NodeId) (kind : Kind) (token : Option String) :
    Copied slots (alloc slots' kind token (ms.map Node.id) false) [⟨id, kind, token, ns⟩]
      [⟨slots'.size, kind, token, ms⟩] where
  nameless_eq := by
    rw [List.map_singleton, List.map_singleton, Node.nameless_mk, Node.nameless_mk, h.nameless_eq]
  holds := by
    rw [List.forall_mem_singleton]
    exact Holds.alloc_new h.holds false
  keeps := fun hm => (h.keeps hm).alloc ..
  size_eq := by
    rw [size_alloc, h.size_eq, List.flatMap_singleton, Node.ids_eq, List.length_cons,
      Nat.add_assoc]
  mem_ids := fun x => by
    have hsize := h.size_eq
    rw [List.flatMap_singleton, Node.ids_eq, List.mem_cons, h.mem_ids, size_alloc]
    dsimp only
    omega

end Copied

theorem exists_copied (slots : Array Slot) (n : Node) :
    ∃ m, m.id = (graft slots n).2 ∧ Copied slots (graft slots n).1 [n] [m] := by
  induction n using Node.induction generalizing slots with
  | mk id kind token children ih =>
    have hall : ∀ (ns : List Node) (slots : Array Slot), (∀ n ∈ ns, n ∈ children) →
        ∃ ms, ms.map Node.id = (graftAll slots ns).2 ∧
          Copied slots (graftAll slots ns).1 ns ms := by
      intro ns
      induction ns with
      | nil => exact fun slots _ => ⟨[], rfl, .nil slots⟩
      | cons n ns ihs =>
        intro slots hns
        rw [List.forall_mem_cons] at hns
        obtain ⟨m, hm, hcopied⟩ := ih n hns.1 slots
        obtain ⟨ms, hms, hrest⟩ := ihs (graft slots n).1 hns.2
        exact ⟨m :: ms, congrArg₂ List.cons hm hms, hcopied.cons hrest⟩
    obtain ⟨ms, hms, hcopied⟩ := hall children slots fun _ hc => hc
    refine ⟨⟨(graftAll slots children).1.size, kind, token, ms⟩, rfl, ?_⟩
    have hnode := hcopied.node id kind token
    rwa [hms] at hnode

theorem graft_snd_add_one (slots : Array Slot) (n : Node) :
    (graft slots n).2 + 1 = (graft slots n).1.size := by
  obtain ⟨id, kind, token, children⟩ := n
  rw [graft]
  exact (size_alloc ..).symm

end Slots

namespace Tree

variable {admits admits' : Tree → NodeId → Prop} {t u : Tree} {n : Node} {r x : NodeId}

/-- What a subtree looks like, whatever its nodes are called. -/
def shape (t : Tree) (id : NodeId) : Node := (t.node id).nameless

theorem text_shape (t : Tree) (id : NodeId) : (t.shape id).text = t.textOf id :=
  Node.text_nameless _

namespace Linked

theorem copied_graft (h : t.Linked) (n : Node) :
    Slots.Copied t.slots (t.graft n).1.slots [n] [(t.graft n).1.node (t.graft n).2] := by
  obtain ⟨m, hm, hcopied⟩ := Slots.exists_copied t.slots n
  have hnode : (t.graft n).1.node m.id = m :=
    (h.graft n).linked.node_eq (hcopied.holds m List.mem_cons_self)
  have hid : (t.graft n).2 = m.id := hm.symm
  rwa [hid, hnode]

theorem shape_graft (h : t.Linked) (n : Node) :
    (t.graft n).1.shape (t.graft n).2 = n.nameless :=
  List.singleton_inj.1 (h.copied_graft n).nameless_eq

/-- What is grafted keeps its text. -/
theorem textOf_graft (h : t.Linked) (n : Node) :
    (t.graft n).1.textOf (t.graft n).2 = n.text := by
  rw [← text_shape, h.shape_graft, Node.text_nameless]

theorem node_graft (h : t.Linked) (n : Node) (hx : x < t.size) :
    (t.graft n).1.node x = t.node x := by
  have hnode := (h.graft n).linked.node_eq ((h.copied_graft n).keeps (h.holds_node hx))
  rwa [id_node] at hnode

theorem ids_node (h : t.Linked) (hx : x < t.size) : (t.node x).ids = t.preorder x := by
  have hids := h.preorder_eq_ids (h.holds_node hx)
  rw [id_node] at hids
  exact hids.symm

end Linked

/-- `grown` is `t` with a detached copy of the subtree at `r` of `u` behind its slots, which has
`copy` on top. -/
structure HasCopy (t u : Tree) (r : NodeId) (grown : Tree) (copy : NodeId) : Prop where
  size_eq : grown.size = t.size + (u.preorder r).length
  last : copy + 1 = grown.size
  shape_eq : grown.shape copy = u.shape r
  within_iff : ∀ x, grown.Within x copy ↔ t.size ≤ x ∧ x < grown.size
  parent?_copy : grown.parent? copy = none
  getElem?_children : ∀ p c i,
    (grown.children p)[i]? = some c ↔ grown.parent? c = some p ∧ grown.index c = i
  detached : ∀ x, t.size ≤ x → grown.isAttached x = false
  slot_eq : ∀ x < t.size, grown.slot x = t.slot x
  root_eq : grown.root = t.root
  text_eq : grown.text = t.text

theorem Run.hasCopy_graft (ht : Run admits t) (hu : Run admits' u) (hr : r < u.size) :
    HasCopy t u r (t.graft (u.node r)).1 (t.graft (u.node r)).2 := by
  have hl := ht.sound.linked
  have g := hl.graft (u.node r)
  have hcopied := hl.copied_graft (u.node r)
  have hlast := Slots.graft_snd_add_one t.slots (u.node r)
  refine ⟨?_, hlast, hl.shape_graft _, fun x => ?_,
    g.loose.parent?_eq _ List.mem_cons_self, fun p c i => g.linked.getElem?_eq_some_iff,
    g.detached, g.slot_eq, g.root_eq, ?_⟩
  · have hsize := hcopied.size_eq
    rwa [List.flatMap_singleton, hu.sound.linked.ids_node hr] at hsize
  · have hids := g.linked.mem_ids (x := x) (hcopied.holds _ List.mem_cons_self)
    have hnew := hcopied.mem_ids x
    rw [id_node] at hids
    rwa [List.flatMap_singleton, hids] at hnew
  · rw [text, textOf, g.root_eq, hl.node_graft _ ht.sound.root_lt_size, text, textOf]

/-- The whole file, copied to where its block was taken out: the copy has text again, the file does
not get it back. -/
theorem hasCopy_of_file_copied :
    HasCopy (left (Tree.remove 2) twoWords) twoWords 3
        ((left (Tree.remove 2) twoWords).graft (twoWords.node 3)).1 7 ∧
      ((left (Tree.remove 2) twoWords).graft (twoWords.node 3)).1.textOf 7 = "ab" ∧
      ((left (Tree.remove 2) twoWords).graft (twoWords.node 3)).1.text = "a" := by
  have ht : Run (fun _ _ => True) (left (Tree.remove 2) twoWords) := .remove 2 (.built _)
  have hu : Run (fun _ _ => True) twoWords := .built _
  have hcopy := ht.hasCopy_graft hu (r := 3) (by decide)
  have hid : ((left (Tree.remove 2) twoWords).graft (twoWords.node 3)).2 = 7 := by decide
  rw [hid] at hcopy
  exact ⟨hcopy, by decide, hcopy.text_eq.trans (by decide)⟩

end Tree

end PhpLint
