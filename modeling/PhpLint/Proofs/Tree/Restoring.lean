import PhpLint.Proofs.Tree.Spliced

/-! Taking a node out and putting it back in its old place. Each of the two writes anew the places of
the siblings, the link to the parent and the flags of a whole subtree; done one after the other they
leave every slot as it was, but for its version. -/

namespace PhpLint.Tree

variable {t u : Tree} {parent child n p m : NodeId} {list : List NodeId → List NodeId}
  {home : Option NodeId} {flag : Bool}

/-! What a single move does. -/

theorem Touched.version_le (h : Touched t u parent child) (m : NodeId) :
    t.version m ≤ u.version m := by
  by_cases hm : t.Concerned parent child m
  · exact h.version_succ m hm ▸ Nat.le_succ _
  · exact (h.version_eq m hm).ge

namespace Move

theorem within_moved_iff (h : t.Move parent list child home) :
    ((t.rewired parent list child home).flagged child flag parent).Within m child ↔
      t.Within m child :=
  (within_of_parents fun _ _ => parent?_flagged).trans h.within_child_iff

/-- Places are told to the children in the list that changes, and to no others. -/
theorem index_moved (h : t.Move parent list child home) (hm : m ∉ list (t.children parent)) :
    ((t.rewired parent list child home).flagged child flag parent).index m = t.index m := by
  have hlt : ∀ c ∈ list (t.children parent), c < t.size := fun c hc => by
    rcases (h.mem_list c).1 hc with ⟨rfl, -⟩ | ⟨-, hu⟩
    · exact h.child_lt
    · exact hu.lt_size
  rw [index_flagged, index_rewired h.parent_lt h.child_lt h.nodup hlt, if_neg hm]

end Move

/-! The two moves one after the other. -/

/-- `n` taken out from under `p` and put back. -/
def putBack (t : Tree) (p n : NodeId) : Tree :=
  (t.unlinked p (t.index n) n).linked p (t.index n) n

section PutBack

variable (h : t.Sound) (hu : t.Under n p) (hn : t.isAttached n = true)

include h hu hn

/-- The place of a node that was taken out is free for the node itself. -/
theorem insert_self_eq :
    insert p (t.index n) n (t.unlinked p (t.index n) n) = .ok () (t.putBack p n) := by
  rw [h.insert_free_eq hu hn (h.ne_root_of_under hu) (isAttached_unlinked_self h.linked hu),
    parent?_unlinked h.linked hu, if_pos rfl]
  rfl

theorem sound_unlinked_putBack : (t.unlinked p (t.index n) n).Sound ∧ (t.putBack p n).Sound := by
  have hs := h.unlinked (h.ne_root_of_under hu) hu
  exact ⟨hs, hs.of_insert (size_unlinked.symm ▸ hu.lt_size) (insert_self_eq h hu hn)⟩

theorem move_back :
    (t.unlinked p (t.index n) n).Move p (·.insertIdx (t.index n) n) n (some p) := by
  obtain ⟨hp, -, hhome, hatt, hplace, -⟩ := insert_ok (insert_self_eq h hu hn)
  exact (sound_unlinked_putBack h hu hn).1.move hp (size_unlinked.symm ▸ hu.lt_size) hhome hatt hplace

theorem touched_unlinked : Touched t (t.unlinked p (t.index n) n) p n := by
  obtain ⟨q, hq, htouched, -⟩ := h.touched_remove (h.remove_eq_ok hu hn)
  obtain rfl := hu.parent_unique hq
  exact htouched

theorem touched_putBack : Touched (t.unlinked p (t.index n) n) (t.putBack p n) p n :=
  ((sound_unlinked_putBack h hu hn).1.touched_insert (size_unlinked.symm ▸ hu.lt_size)
    (insert_self_eq h hu hn)).1

omit hn in
theorem insertIdx_children_unlinked :
    ((t.unlinked p (t.index n) n).children p).insertIdx (t.index n) n = t.children p := by
  obtain ⟨hlt, hself⟩ := List.getElem?_eq_some_iff.1 (h.linked.getElem?_index hu)
  rw [h.linked.children_unlinked hu, if_pos rfl]
  conv_lhs => arg 3; rw [← hself]
  exact List.insertIdx_eraseIdx_getElem hlt

theorem children_putBack (m : NodeId) : (t.putBack p n).children m = t.children m := by
  have hm := move_back h hu hn
  rw [putBack, linked_eq, children_flagged, children_rewired hm.parent_lt hm.child_lt]
  split
  next hmp => rw [hmp, insertIdx_children_unlinked h hu]
  next hmp => rw [h.linked.children_unlinked hu, if_neg hmp]

theorem parent?_putBack (m : NodeId) : (t.putBack p n).parent? m = t.parent? m := by
  have hm := move_back h hu hn
  rw [putBack, linked_eq, parent?_flagged, parent?_rewired hm.parent_lt hm.child_lt]
  split
  next hmn => rw [hmn, hu]
  next hmn => rw [parent?_unlinked h.linked hu, if_neg hmn]

theorem index_putBack (m : NodeId) : (t.putBack p n).index m = t.index m := by
  by_cases hm : m ∈ t.children p
  · have hold := h.linked.mem_children.1 hm
    have hnew : (t.putBack p n).Under m p := (parent?_putBack h hu hn m).trans hold
    rw [(sound_unlinked_putBack h hu hn).2.linked.index_eq hnew, children_putBack h hu hn,
      h.linked.index_eq hold]
  · -- who is no child of `p` is told no place by either of the two
    have hout : (t.unlinked p (t.index n) n).index m = t.index m :=
      (Move.remove h.linked hu).index_moved fun hmem => hm (List.mem_of_mem_eraseIdx hmem)
    rw [putBack, linked_eq, (move_back h hu hn).index_moved
      ((insertIdx_children_unlinked h hu).symm ▸ hm), hout]

theorem isAttached_putBack (m : NodeId) : (t.putBack p n).isAttached m = t.isAttached m := by
  have hout := Move.remove h.linked hu
  have hwithin : (t.unlinked p (t.index n) n).Within m n ↔ t.Within m n := hout.within_moved_iff
  rw [putBack, linked_eq,
    (move_back h hu hn).isAttached_moved (sound_unlinked_putBack h hu hn).1.linked]
  split
  next hm => rw [h.isAttached_of_within (hwithin.1 hm), hn]
  next hm =>
    rw [isAttached_unlinked h.linked hu, if_neg fun hw => hm (hwithin.2 hw)]

end PutBack

/-- In `u` every node is what it is in `t` and stands where it stands there; the versions may have
risen. -/
structure Restored (t u : Tree) : Prop where
  root_eq : u.root = t.root
  size_eq : u.size = t.size
  slot_eq : ∀ m, u.slot m = { t.slot m with version := u.version m }
  version_le : ∀ m, t.version m ≤ u.version m

theorem slot_eq_of_fields (hkind : u.kind m = t.kind m) (htext : u.tokenText? m = t.tokenText? m)
    (hparent : u.parent? m = t.parent? m) (hchildren : u.children m = t.children m)
    (hindex : u.index m = t.index m) (hattached : u.isAttached m = t.isAttached m) :
    u.slot m = { t.slot m with version := u.version m } := by
  simp only [kind, tokenText?, parent?, children, index, isAttached] at *
  rw [← hkind, ← htext, ← hparent, ← hchildren, ← hindex, ← hattached, version]

theorem Sound.restored_putBack (h : t.Sound) (hu : t.Under n p) (hn : t.isAttached n = true) :
    Restored t (t.putBack p n) := by
  have hout := touched_unlinked h hu hn
  have hin := touched_putBack h hu hn
  exact {
    root_eq := hin.root_eq.trans hout.root_eq
    size_eq := hin.size_eq.trans hout.size_eq
    slot_eq := fun m => slot_eq_of_fields ((hin.kind_eq m).trans (hout.kind_eq m))
      ((hin.tokenText?_eq m).trans (hout.tokenText?_eq m)) (parent?_putBack h hu hn m)
      (children_putBack h hu hn m) (index_putBack h hu hn m) (isAttached_putBack h hu hn m)
    version_le := fun m => (hout.version_le m).trans (hin.version_le m) }

/-- A node that was taken out can be put back in its old place, which leaves every slot of the tree,
in the subtree and elsewhere, as it was, but for versions that have risen. -/
theorem Run.restored_by_putting_back {admits : Tree → NodeId → Prop} (ht : Run admits t)
    (hn : t.isAttached n = true) (hp : t.parent? n = some p) :
    ∃ i u v, Tree.remove n t = .ok i u ∧ Tree.insert p i n u = .ok () v ∧ Restored t v :=
  ⟨_, _, _, ht.sound.remove_eq_ok hp hn, insert_self_eq ht.sound hp hn,
    ht.sound.restored_putBack hp hn⟩

/-- The first block is taken out of its file and put back. Its word, its file and itself have newer
versions then, and the second block is as it was. -/
theorem restored_by_putting_back_block :
    ∃ u v, Tree.remove 2 threeWords = .ok 1 u ∧ Tree.insert 5 1 2 u = .ok () v ∧
      v.children 5 = [0, 2, 4] ∧ v.isAttached 1 = true ∧ Restored threeWords v := by
  have hrun : Run (fun _ _ => True) threeWords := .built _
  obtain ⟨i, u, v, hremove, hinsert, hrestored⟩ :=
    hrun.restored_by_putting_back (n := 2) (p := 5) (by decide) (by decide)
  obtain ⟨rfl, -⟩ := EStateM.Result.ok.inj ((remove_eq threeWords 2).symm.trans hremove)
  have hchildren : v.children 5 = threeWords.children 5 := by
    rw [children, hrestored.slot_eq, children]
  have hattached : v.isAttached 1 = threeWords.isAttached 1 := by
    rw [isAttached, hrestored.slot_eq, isAttached]
  exact ⟨u, v, hremove, hinsert, hchildren.trans (by decide), hattached.trans (by decide),
    hrestored⟩

end PhpLint.Tree
