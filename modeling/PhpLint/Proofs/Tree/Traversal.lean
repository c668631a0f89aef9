import PhpLint.Proofs.Tree.Reading
import PhpLint.Proofs.Tree.Versions

/-! The walks through a tree, without a bound on their steps. One goes down with a stack that grows
at its end, where the children of a node are laid with the first on top; the other goes up from
parent to parent. On the trees a program can get hold of both come to an end, having met what
`preorder` and `ancestors` list. -/

namespace PhpLint

section

variable {σ α : Type} {next : σ → Option (α × σ)} {s : σ} {items items' : List α}

/-- From the state `s` on the iterator `next` gives `items` and then ends. -/
inductive Yields (next : σ → Option (α × σ)) : σ → List α → Prop
  | done {s : σ} : next s = none → Yields next s []
  | item {s s' : σ} {a : α} {items : List α} :
    next s = some (a, s') → Yields next s' items → Yields next s (a :: items)

theorem Yields.unique (h : Yields next s items) (h' : Yields next s items') : items = items' := by
  induction h generalizing items' with
  | done hs =>
    cases h' with
    | done => rfl
    | item hs' => cases hs.symm.trans hs'
  | item hs _ ih =>
    cases h' with
    | done hs' => cases hs.symm.trans hs'
    | item hs' h' =>
      cases hs.symm.trans hs'
      rw [ih h']

theorem Yields.iff_eq (h : Yields next s items) : Yields next s items' ↔ items' = items :=
  ⟨fun h' => h'.unique h, fun he => he ▸ h⟩

end

/-! Subtrees as values. -/

theorem Node.ids_infix_of_mem_preorder {n m : Node} (hm : m ∈ n.preorder) : m.ids <:+: n.ids := by
  induction n using Node.induction with
  | mk id kind token children ih =>
    rw [preorder_eq, List.mem_cons, List.mem_flatMap] at hm
    rcases hm with rfl | ⟨c, hc, hm⟩
    · exact List.infix_rfl
    · obtain ⟨before, after, rfl⟩ := List.append_of_mem hc
      refine (ih c hc hm).trans ⟨id :: before.flatMap ids, after.flatMap ids, ?_⟩
      simp [ids_eq]

namespace Tree

variable {t : Tree} {n m : NodeId}

/-- The walk down: the node on top of the stack is met and gives way to its children. -/
def nextBelow (t : Tree) (stack : List NodeId) : Option (NodeId × List NodeId) :=
  stack.getLast?.map fun id => (id, stack.dropLast ++ (t.children id).reverse)

/-- The walk up. -/
def nextAbove (t : Tree) (above : Option NodeId) : Option (NodeId × Option NodeId) :=
  above.map fun id => (id, t.parent? id)

/-- A walk that leaves some of its steps unused has come to its end. The stack of `walk` has its top
in front. -/
theorem yields_walk {fuel : Nat} {stack : List NodeId} (h : (t.walk fuel stack).length < fuel) :
    Yields t.nextBelow stack.reverse (t.walk fuel stack) := by
  induction fuel generalizing stack with
  | zero => exact absurd h (Nat.not_lt_zero _)
  | succ fuel ih =>
    cases stack with
    | nil => exact .done rfl
    | cons id stack =>
      rw [walk, List.length_cons, Nat.add_lt_add_iff_right] at h
      have hnext : t.nextBelow (id :: stack).reverse =
          some (id, (t.children id ++ stack).reverse) := by simp [nextBelow]
      exact .item hnext (ih h)

namespace Linked

theorem yields_preorder (h : t.Linked) (hn : n < t.size) :
    Yields t.nextBelow [n] (t.preorder n) := by
  obtain ⟨top, htop, rfl⟩ := h.exists_holds hn
  have hle := h.length_ids_le htop
  -- One step more than there are slots, so that a step is left when all nodes have been met.
  have hwalk : t.walk (t.size + 1) [top.id] = t.preorder top.id := by
    rw [walk_of_holds htop [] (Nat.le_succ_of_le hle), h.preorder_eq_ids htop, Nat.succ_sub hle,
      walk, List.append_nil]
  have hlength : (t.walk (t.size + 1) [top.id]).length < t.size + 1 := by
    rw [hwalk, h.preorder_eq_ids htop]
    exact Nat.lt_succ_of_le hle
  exact hwalk ▸ yields_walk hlength

theorem preorder_eq_cons (h : t.Linked) (hn : n < t.size) :
    t.preorder n = n :: (t.children n).flatMap t.preorder := by
  obtain ⟨top, htop, rfl⟩ := h.exists_holds hn
  have hchildren : ∀ c ∈ top.children, t.preorder c.id = c.ids := fun c hc =>
    h.preorder_eq_ids (htop.of_mem hc)
  rw [h.preorder_eq_ids htop, Node.ids_eq, children_of_holds htop, List.flatMap_map]
  exact congrArg _ (List.flatMap_congr hchildren).symm

theorem preorder_infix (h : t.Linked) (hn : n < t.size) (hm : m ∈ t.preorder n) :
    t.preorder m <:+: t.preorder n := by
  obtain ⟨top, htop, rfl⟩ := h.exists_holds hn
  rw [h.preorder_eq_ids htop] at hm ⊢
  obtain ⟨below, hbelow, rfl⟩ := List.mem_map.1 hm
  rw [h.preorder_eq_ids (htop.of_mem_preorder hbelow)]
  exact Node.ids_infix_of_mem_preorder hbelow

/-- What is true of nodes under nobody, and of a node if it is of its parent, is true of all. -/
theorem above_induction (h : t.Linked) {motive : NodeId → Prop}
    (root : ∀ n, t.parent? n = none → motive n)
    (under : ∀ n p, t.Under n p → motive p → motive n) (n : NodeId) : motive n := by
  cases hp : t.parent? n with
  | none => exact root n hp
  | some p => exact under n p hp (above_induction h root under p)
termination_by (t.ancestors n).length
decreasing_by
  rw [h.ancestors_of_under hp]
  exact Nat.lt_succ_self _

theorem yields_ancestors (h : t.Linked) (n : NodeId) :
    Yields t.nextAbove (t.parent? n) (t.ancestors n) := by
  induction n using h.above_induction with
  | root n hp =>
    rw [hp, ancestors_of_parent?_eq_none hp]
    exact .done rfl
  | under n p hp ih =>
    rw [show t.parent? n = some p from hp, h.ancestors_of_under hp]
    exact .item rfl ih

theorem mem_ancestors (h : t.Linked) (hn : n < t.size) :
    m ∈ t.ancestors n ↔ m ≠ n ∧ t.Within n m := by
  have hnodup : (n :: t.ancestors n).Nodup := h.nodup_chain (t.size + 1)
  rw [← h.mem_cons_ancestors hn, List.mem_cons]
  refine ⟨fun hm => ⟨fun he => (List.nodup_cons.1 hnodup).1 (he ▸ hm), .inr hm⟩, ?_⟩
  exact fun hm => hm.2.resolve_left hm.1

theorem mem_ancestors_iff_mem_preorder (h : t.Linked) (hn : n < t.size) :
    m ∈ t.ancestors n ↔ m ≠ n ∧ m < t.size ∧ n ∈ t.preorder m := by
  rw [h.mem_ancestors hn]
  refine and_congr_right fun _ => ⟨fun hw => ?_, fun hm => (h.mem_preorder hm.1).1 hm.2⟩
  have hm := h.lt_size_of_within hw hn
  exact ⟨hm, (h.mem_preorder hm).2 hw⟩

/-- The nodes above a node stand one within the next. -/
theorem pairwise_ancestors (h : t.Linked) (hn : n < t.size) :
    (t.ancestors n).Pairwise fun inner outer => inner ≠ outer ∧ inner ∈ t.preorder outer := by
  induction n using h.above_induction with
  | root n hp =>
    rw [ancestors_of_parent?_eq_none hp]
    exact .nil
  | under n p hp ih =>
    have hsize := h.parent_lt_size hp
    rw [h.ancestors_of_under hp]
    refine .cons (fun outer houter => ?_) (ih hsize)
    obtain ⟨hne, -, hmem⟩ := (h.mem_ancestors_iff_mem_preorder hsize).1 houter
    exact ⟨hne.symm, hmem⟩

end Linked

/-- Of every tree a program can get hold of, the walk down from a node ends and meets the node, then
what the walks from its children meet, from left to right: each node of the subtree once, with the
subtree of a node below in one piece. The walk up ends too, and meets those nodes whose subtree the
node is in, itself aside, the innermost first. -/
theorem Run.walks {admits : Tree → NodeId → Prop} (h : Run admits t) (hn : n < t.size) :
    (∀ met, Yields t.nextBelow [n] met ↔ met = t.preorder n) ∧
      t.preorder n = n :: (t.children n).flatMap t.preorder ∧
      (t.preorder n).Nodup ∧ (∀ m, m ∈ t.preorder n ↔ t.Within m n) ∧
      (∀ m ∈ t.preorder n, t.preorder m <:+: t.preorder n) ∧
      (∀ met, Yields t.nextAbove (t.parent? n) met ↔ met = t.ancestors n) ∧
      (∀ m, m ∈ t.ancestors n ↔ m ≠ n ∧ m < t.size ∧ n ∈ t.preorder m) ∧
      (t.ancestors n).Pairwise fun inner outer => inner ≠ outer ∧ inner ∈ t.preorder outer := by
  have hl := h.sound.linked
  exact ⟨fun _ => (hl.yields_preorder hn).iff_eq, hl.preorder_eq_cons hn, hl.nodup_preorder hn,
    fun _ => hl.mem_preorder hn, fun _ => hl.preorder_infix hn,
    fun _ => (hl.yields_ancestors n).iff_eq, fun _ => hl.mem_ancestors_iff_mem_preorder hn,
    hl.pairwise_ancestors hn⟩

/-- The block of two words put in front of the first word. -/
def blockFirst : Tree := left (Tree.insert 3 0 2) (left (Tree.remove 2) twoWords)

theorem walks_of_blockFirst :
    Yields blockFirst.nextBelow [3] [3, 2, 1, 0] ∧ blockFirst.preorder 2 = [2, 1] ∧
      Yields blockFirst.nextAbove (blockFirst.parent? 1) [2, 3] ∧ 3 ∈ blockFirst.ancestors 1 := by
  have hrun : Run (fun _ _ => True) blockFirst :=
    .insert 0 (.remove 2 (.built _)) trivial (by decide)
  obtain ⟨hbelow, -, -, -, -, -, -, -⟩ := Run.walks hrun (show 3 < blockFirst.size by decide)
  obtain ⟨-, -, -, -, -, habove, hmem, -⟩ := Run.walks hrun (show 1 < blockFirst.size by decide)
  exact ⟨(hbelow _).2 (by decide), by decide, (habove _).2 (by decide), (hmem 3).2 (by decide)⟩

end Tree

end PhpLint
