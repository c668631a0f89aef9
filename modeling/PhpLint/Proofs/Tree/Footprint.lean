import PhpLint.Proofs.Tree.Versions

/-! What an edit touches, and nothing else. Putting in and taking out change one child list and the
parent of the node that moves. They raise the versions of the nodes from that child list upwards
and of the subtree that moves, each by one: the two have no node in common. -/

namespace PhpLint.Tree

variable {t : Tree} {parent child n x : NodeId} {list : List NodeId → List NodeId}
  {home : Option NodeId} {flag : Bool}

/-- The nodes that a move of `child` to or from under `parent` concerns: `parent` with all it stands
in, and what stands in `child`. -/
def Concerned (t : Tree) (parent child n : NodeId) : Prop := t.Within parent n ∨ t.Within n child

/-- Of the nodes of `t`, a move of `child` to or from under `parent` has touched the concerned ones
and no other. -/
structure Touched (t u : Tree) (parent child : NodeId) : Prop where
  root_eq : u.root = t.root
  size_eq : u.size = t.size
  version_succ : ∀ n, t.Concerned parent child n → u.version n = t.version n + 1
  version_eq : ∀ n, ¬ t.Concerned parent child n → u.version n = t.version n
  isValid_iff : ∀ handle, t.isValid handle = true →
    (u.isValid handle = true ↔ ¬ t.Concerned parent child handle.id)
  children_eq : ∀ n, n ≠ parent → u.children n = t.children n
  parent?_eq : ∀ n, n ≠ child → u.parent? n = t.parent? n
  kind_eq : ∀ n, u.kind n = t.kind n
  tokenText?_eq : ∀ n, u.tokenText? n = t.tokenText? n

/-! The rewiring changes nothing above its place. -/

namespace Move

theorem within_above_iff (h : t.Move parent list child home) (hapart : ¬ t.Within parent child) :
    (t.rewired parent list child home).Within parent x ↔ t.Within parent x := by
  constructor
  · intro hw
    induction hw with
    | refl => exact .refl t parent
    | tail _ hu ih =>
      rcases h.under_rewired.1 hu with ⟨rfl, -⟩ | ⟨-, hu⟩
      · exact absurd ih hapart
      · exact ih.trans (.of_under hu)
  · intro hw
    induction hw with
    | refl => exact .refl _ parent
    | @tail x y hw hu ih =>
      have hne : x ≠ child := fun he => hapart (he ▸ hw)
      exact ih.trans (.of_under (h.under_rewired.2 (.inr ⟨hne, hu⟩)))

theorem concerned_rewired_iff (h : t.Move parent list child home)
    (hapart : ¬ t.Within parent child) :
    (t.rewired parent list child home).Concerned parent child n ↔ t.Concerned parent child n :=
  or_congr (h.within_above_iff hapart) h.within_child_iff

end Move

/-! How far the versions rise. -/

namespace Linked

open Classical in
theorem count_preorder (h : t.Linked) (hchild : child < t.size) :
    (t.preorder child).count n = if t.Within n child then 1 else 0 := by
  simp only [← h.mem_preorder hchild]
  exact (h.nodup_preorder hchild).count

open Classical in
theorem count_cons_ancestors (h : t.Linked) (hparent : parent < t.size) :
    (parent :: t.ancestors parent).count n = if t.Within parent n then 1 else 0 := by
  have hnodup : (parent :: t.ancestors parent).Nodup := h.nodup_chain (t.size + 1)
  simp only [← h.mem_cons_ancestors hparent]
  exact hnodup.count

open Classical in
/-- A place that is not in the moved subtree has no node above it that is. -/
theorem version_flagged_eq (h : t.Linked) (hparent : parent < t.size) (hchild : child < t.size)
    (hapart : ¬ t.Within parent child) (n : NodeId) :
    (t.flagged child flag parent).version n =
      t.version n + if t.Concerned parent child n then 1 else 0 := by
  by_cases hn : n < t.size
  · rw [version_flagged hn, h.count_preorder hchild, h.count_cons_ancestors hparent, Concerned]
    by_cases habove : t.Within parent n
    · have hbelow : ¬ t.Within n child := fun hbelow => hapart (habove.trans hbelow)
      rw [if_neg hbelow, if_pos habove, if_pos (.inl habove)]
    · rw [if_neg habove, or_iff_right habove]
      rfl
  · have hle : t.size ≤ n := Nat.le_of_not_lt hn
    have hconcerned : ¬ t.Concerned parent child n := by
      rintro (hw | hw)
      · exact hn (h.lt_size_of_within hw hparent)
      · exact hn (hw.lt_size hchild)
    rw [if_neg hconcerned, version_of_size_le hle, version_of_size_le (by rwa [size_flagged])]

end Linked

/-! Single edits. -/

theorem Move.touched (h : t.Move parent list child home) (ht : t.Linked)
    (hapart : ¬ t.Within parent child) :
    Touched t ((t.rewired parent list child home).flagged child flag parent) parent child := by
  have hl := h.linked_rewired ht
  have hsize : (t.rewired parent list child home).size = t.size := size_rewired
  have hversion : ∀ n, (t.rewired parent list child home).version n = t.version n :=
    version_rewired h.parent_lt h.child_lt
  have hrise : ∀ n, ((t.rewired parent list child home).flagged child flag parent).version n = _ :=
    hl.version_flagged_eq (hsize ▸ h.parent_lt) (hsize ▸ h.child_lt)
      fun hw => hapart (h.within_child_iff.1 hw)
  have hsucc : ∀ n, t.Concerned parent child n →
      ((t.rewired parent list child home).flagged child flag parent).version n =
        t.version n + 1 := fun n hn => by
    rw [hrise, if_pos ((h.concerned_rewired_iff hapart).2 hn), hversion]
  have hsame : ∀ n, ¬ t.Concerned parent child n →
      ((t.rewired parent list child home).flagged child flag parent).version n =
        t.version n := fun n hn => by
    rw [hrise, if_neg fun hr => hn ((h.concerned_rewired_iff hapart).1 hr), hversion,
      Nat.add_zero]
  refine ⟨?_, ?_, hsucc, hsame, fun handle hvalid => ?_, fun n hn => ?_, fun n hn => ?_,
    fun n => ?_, fun n => ?_⟩
  · rw [root_flagged, root_rewired]
  · rw [size_flagged, hsize]
  · rw [isValid, Bool.and_eq_true, beq_iff_eq] at hvalid ⊢
    constructor
    · rintro ⟨-, hafter⟩ hconcerned
      have hrisen := hsucc handle.id hconcerned
      omega
    · intro hconcerned
      refine ⟨?_, (hsame handle.id hconcerned).trans hvalid.2⟩
      rw [h.isAttached_moved ht, if_neg fun hw => hconcerned (.inr hw), hvalid.1]
  · rw [children_flagged, children_rewired h.parent_lt h.child_lt, if_neg hn]
  · rw [parent?_flagged, parent?_rewired h.parent_lt h.child_lt, if_neg hn]
  · exact kind_flagged.trans (kind_rewired h.parent_lt h.child_lt n)
  · exact tokenText?_flagged.trans (tokenText?_rewired h.parent_lt h.child_lt n)

theorem Sound.touched_insert (h : t.Sound) {index : Nat} {u : Tree} (hchild : child < t.size)
    (hinsert : Tree.insert parent index child t = .ok () u) :
    Touched t u parent child ∧ u.parent? child = some parent ∧
      u.children parent = (t.children parent).insertIdx index child := by
  obtain ⟨hp, -, hhome, hatt, hindex, rfl⟩ := insert_ok hinsert
  have hmove := h.move hp hchild hhome hatt hindex
  rw [linked_eq]
  refine ⟨hmove.touched h.linked (hmove.not_within rfl), ?_, ?_⟩
  · rw [parent?_flagged, parent?_rewired hmove.parent_lt hchild, if_pos rfl]
  · rw [children_flagged, children_rewired hmove.parent_lt hchild, if_pos rfl]

theorem Sound.touched_remove (h : t.Sound) {id : NodeId} {index : Nat} {u : Tree}
    (hremove : Tree.remove id t = .ok index u) : ∃ parent, t.parent? id = some parent ∧
      Touched t u parent id ∧ u.parent? id = none ∧
        u.children parent = (t.children parent).eraseIdx index := by
  obtain ⟨parent, hu, -, -, rfl, rfl⟩ := remove_ok hremove
  have hmove := Move.remove h.linked hu
  rw [unlinked_eq]
  refine ⟨parent, hu, hmove.touched h.linked (h.linked.not_within_of_under hu), ?_, ?_⟩
  · rw [parent?_flagged, parent?_rewired hmove.parent_lt hmove.child_lt, if_pos rfl]
  · rw [children_flagged, children_rewired hmove.parent_lt hmove.child_lt, if_pos rfl]

/-- Putting in and taking out touch the node whose child list changes, all it stands in and the
subtree that moves. The versions of these nodes rise, so that handles of them are stale; every other
handle that was valid stays valid, and of the links only the one between the two nodes changes. -/
theorem Run.touched_by_edit {admits : Tree → NodeId → Prop} (ht : Run admits t) :
    (∀ parent index child u, child < t.size → Tree.insert parent index child t = .ok () u →
      Touched t u parent child ∧ u.parent? child = some parent ∧
        u.children parent = (t.children parent).insertIdx index child) ∧
      ∀ id i u, Tree.remove id t = .ok i u → ∃ parent, t.parent? id = some parent ∧
        Touched t u parent id ∧ u.parent? id = none ∧
          u.children parent = (t.children parent).eraseIdx i :=
  ⟨fun _ _ _ _ hchild h => ht.sound.touched_insert hchild h,
    fun _ _ _ h => ht.sound.touched_remove h⟩

/-- The first block is taken out: that concerns the file, the block and the word in it. The handle of
the second block stays valid. -/
theorem touched_of_block_removed :
    ∃ u, Tree.remove 2 threeWords = .ok 1 u ∧ Touched threeWords u 5 2 ∧
      (∀ n, threeWords.Concerned 5 2 n ↔ n ∈ [5, 2, 1]) ∧
        u.isValid (threeWords.handle 4) = true := by
  have hrun : Run (fun _ _ => True) threeWords := .built _
  have hremove : Tree.remove 2 threeWords = .ok 1 (left (Tree.remove 2) threeWords) := by
    rw [left, remove_eq]
    rfl
  obtain ⟨parent, hparent, htouched, -⟩ := hrun.touched_by_edit.2 2 1 _ hremove
  obtain rfl : 5 = parent := Option.some.inj hparent
  have hconcerned : ∀ n, threeWords.Concerned 5 2 n ↔ n ∈ [5, 2, 1] := fun n => by
    have habove : 5 :: threeWords.ancestors 5 = [5] := by decide
    have hbelow : threeWords.preorder 2 = [2, 1] := by decide
    rw [Concerned, ← hrun.sound.linked.mem_cons_ancestors (by decide),
      ← hrun.sound.linked.mem_preorder (by decide), habove, hbelow, ← List.mem_append,
      List.singleton_append]
  refine ⟨_, hremove, htouched, hconcerned, ?_⟩
  rw [htouched.isValid_iff _ (by decide), hconcerned]
  decide

end PhpLint.Tree
