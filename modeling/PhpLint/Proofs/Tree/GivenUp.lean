import PhpLint.Proofs.Tree.Reachable

/-! Edits that are given up. Putting in and taking out refuse before they change anything. Replacing
takes the old node out before it is known whether the new one may be put in, and the one thing that
is asked only then is whether the new node still has a parent, as the inner nodes of a subtree that
was taken out do. -/

namespace PhpLint.Tree

variable {admits : Tree → NodeId → Prop} {t u : Tree} {parent child id old replacement n : NodeId}
  {index : Nat} {e : StructureError}

theorem eq_of_insert_error (h : insert parent index child t = .error e u) : u = t := by
  rcases insert_cases t parent index child with ⟨e', he⟩ | ⟨he, -⟩
  · rw [he] at h
    cases h
    rfl
  · rw [he] at h
    cases h

theorem eq_of_remove_error (h : remove id t = .error e u) : u = t := by
  rcases remove_cases t id with ⟨e', he⟩ | ⟨parent, he, -⟩
  · rw [he] at h
    cases h
    rfl
  · rw [he] at h
    cases h

/-! What taking a node out does to the nodes that it does not concern. -/

theorem parent?_unlinked (h : t.Linked) (hu : t.Under id parent) (n : NodeId) :
    (t.unlinked parent (t.index id) id).parent? n = if n = id then none else t.parent? n := by
  rw [unlinked_eq, parent?_flagged, parent?_rewired (h.parent_lt_size hu) hu.lt_size]

theorem length_children_unlinked (h : t.Linked) (hu : t.Under id parent) :
    ((t.unlinked parent (t.index id) id).children parent).length + 1 =
      (t.children parent).length := by
  have hindex : t.index id < (t.children parent).length := by
    rw [h.index_eq hu]
    exact List.idxOf_lt_length_of_mem (h.mem_children.2 hu)
  rw [unlinked_eq, children_flagged, children_rewired (h.parent_lt_size hu) hu.lt_size, if_pos rfl,
    List.length_eraseIdx_of_lt hindex]
  omega

open Classical in
theorem isAttached_unlinked (h : t.Linked) (hu : t.Under id parent) (n : NodeId) :
    (t.unlinked parent (t.index id) id).isAttached n =
      if t.Within n id then false else t.isAttached n :=
  (Move.remove h hu).isAttached_moved h n

theorem isAttached_unlinked_self (h : t.Linked) (hu : t.Under id parent) :
    (t.unlinked parent (t.index id) id).isAttached id = false := by
  rw [isAttached_unlinked h hu, if_pos (.refl _ id)]

/-- The parent does not go with the node that is taken out from under it. -/
theorem isAttached_unlinked_parent (h : t.Linked) (hu : t.Under id parent) :
    (t.unlinked parent (t.index id) id).isAttached parent = t.isAttached parent := by
  rw [isAttached_unlinked h hu, if_neg (h.not_within_of_under hu)]

/-- Once a node is out, its place is free for any node but the root that is out as well; nothing but
a parent of its own keeps that one from being put in. -/
theorem Sound.insert_free_eq (h : t.Sound) (hu : t.Under old parent)
    (hold : t.isAttached old = true) (hroot : child ≠ t.root)
    (hout : (t.unlinked parent (t.index old) old).isAttached child = false) :
    insert parent (t.index old) child (t.unlinked parent (t.index old) old) =
      if ((t.unlinked parent (t.index old) old).parent? child).isSome then
        .error (.alreadyAttached child) (t.unlinked parent (t.index old) old)
      else .ok () ((t.unlinked parent (t.index old) old).linked parent (t.index old) child) := by
  have hparent : (t.unlinked parent (t.index old) old).isAttached parent = true := by
    rw [isAttached_unlinked_parent h.linked hu, ← h.isAttached_eq hu, hold]
  have hroot' : child ≠ (t.unlinked parent (t.index old) old).root := by
    rwa [unlinked_eq, root_flagged, root_rewired]
  have hplace : ¬ ((t.unlinked parent (t.index old) old).children parent).length < t.index old := by
    have hlength := length_children_unlinked h.linked hu
    have hindex : t.index old < (t.children parent).length := by
      rw [h.linked.index_eq hu]
      exact List.idxOf_lt_length_of_mem (h.linked.mem_children.2 hu)
    omega
  rw [insert_eq, hparent, if_neg (by decide), if_neg hroot', hout, Bool.or_false, if_neg hplace]

theorem Sound.insert_unlinked_eq (h : t.Sound) (hu : t.Under old parent)
    (hold : t.isAttached old = true) (hnew : t.isAttached replacement = false) :
    insert parent (t.index old) replacement (t.unlinked parent (t.index old) old) =
      if (t.parent? replacement).isSome then
        .error (.alreadyAttached replacement) (t.unlinked parent (t.index old) old)
      else .ok () ((t.unlinked parent (t.index old) old).linked parent (t.index old) replacement) := by
  have hroot : replacement ≠ t.root := by
    rintro rfl
    rw [h.isAttached_root] at hnew
    cases hnew
  have hne : replacement ≠ old := by
    rintro rfl
    rw [hold] at hnew
    cases hnew
  rw [h.insert_free_eq hu hold hroot (by rw [isAttached_unlinked h.linked hu, hnew, ite_self]),
    parent?_unlinked h.linked hu, if_neg hne]

theorem Sound.remove_eq_ok (h : t.Sound) (hu : t.Under id parent) (hatt : t.isAttached id = true) :
    remove id t = .ok (t.index id) (t.unlinked parent (t.index id) id) := by
  rw [remove_eq, if_neg (h.ne_root_of_under hu), hatt, hu]
  rfl

/-- The new node stands detached under a parent of its own, and the old one could be taken out. -/
def TornOut (t : Tree) (old replacement : NodeId) : Prop :=
  t.isAttached old = true ∧ (t.parent? old).isSome = true ∧
    t.isAttached replacement = false ∧ (t.parent? replacement).isSome = true

/-- Replacing by such a node always fails, and the old node is gone. -/
theorem Sound.replace_of_tornOut (h : t.Sound) (htorn : t.TornOut old replacement) :
    ∃ u, remove old t = .ok (t.index old) u ∧
      replace old replacement t = .error (.alreadyAttached replacement) u ∧ u ≠ t := by
  obtain ⟨hold, hhome, hnew, hparent⟩ := htorn
  obtain ⟨parent, hu⟩ := Option.isSome_iff_exists.1 hhome
  have hremove := h.remove_eq_ok hu hold
  refine ⟨_, hremove, ?_, fun heq => ?_⟩
  · rw [replace_eq, hnew, hu, hremove]
    exact (h.insert_unlinked_eq hu hold hnew).trans (if_pos hparent)
  · have hgone := isAttached_unlinked_self h.linked hu
    rw [heq, hold] at hgone
    cases hgone

theorem Sound.eq_of_replace_error (h : t.Sound) (htorn : ¬ t.TornOut old replacement)
    (he : replace old replacement t = .error e u) : u = t := by
  rw [replace_eq] at he
  split at he
  next =>
    cases he
    rfl
  next hnew =>
    cases hhome : t.parent? old with
    | none =>
      rw [hhome] at he
      cases he
      rfl
    | some parent =>
      rw [hhome] at he
      rcases remove_cases t old with ⟨e', hremove⟩ | ⟨q, hremove, -, hold, hu⟩
      · rw [hremove] at he
        cases he
        rfl
      · obtain rfl : parent = q := Under.parent_unique hhome hu
        have hnew : t.isAttached replacement = false := by simpa using hnew
        have hfree : ¬ (t.parent? replacement).isSome = true := fun hs =>
          htorn ⟨hold, by rw [hhome]; rfl, hnew, hs⟩
        rw [hremove] at he
        simp only [h.insert_unlinked_eq hu hold hnew, if_neg hfree] at he
        cases he

/-- An edit that fails leaves the arena as it was. The one exception is replacing by a node that is
detached and has a parent: that fails when the old node is out already, and it stays out. -/
theorem Run.unchanged_of_error (h : Run admits t) :
    (∀ parent index child e u, Tree.insert parent index child t = .error e u → u = t) ∧
      (∀ id e u, Tree.remove id t = .error e u → u = t) ∧
      ∀ old replacement e u, Tree.replace old replacement t = .error e u →
        (u = t ↔ ¬ t.TornOut old replacement) ∧
          (t.TornOut old replacement → e = .alreadyAttached replacement ∧
            Tree.remove old t = .ok (t.index old) u) := by
  refine ⟨fun _ _ _ _ _ => eq_of_insert_error, fun _ _ _ => eq_of_remove_error,
    fun old replacement e u he => ⟨⟨fun heq htorn => ?_, fun htorn => ?_⟩, fun htorn => ?_⟩⟩
  · obtain ⟨v, -, hreplace, hne⟩ := h.sound.replace_of_tornOut htorn
    rw [hreplace] at he
    cases he
    exact hne heq
  · exact h.sound.eq_of_replace_error htorn he
  · obtain ⟨v, hremove, hreplace, -⟩ := h.sound.replace_of_tornOut htorn
    rw [hreplace] at he
    cases he
    exact ⟨rfl, hremove⟩

/-- The block taken out, and then the file itself to be replaced by it. -/
theorem unchanged_of_root_replaced :
    ∃ e u, Tree.replace 3 2 (left (Tree.remove 2) twoWords) = .error e u ∧
      u = left (Tree.remove 2) twoWords := by
  have hrun : Run (fun _ _ => True) (left (Tree.remove 2) twoWords) := .remove 2 (.built _)
  have hparent : (left (Tree.remove 2) twoWords).parent? 3 = none := by decide
  have he : ∃ e u, Tree.replace 3 2 (left (Tree.remove 2) twoWords) = .error e u :=
    ⟨_, _, by rw [replace_eq, if_neg (by decide), hparent]⟩
  obtain ⟨e, u, he⟩ := he
  refine ⟨e, u, he, (hrun.unchanged_of_error.2.2 3 2 e u he).1.2 ?_⟩
  rintro ⟨-, hhome, -⟩
  rw [hparent] at hhome
  cases hhome

/-- The block taken out, and then the first word to be replaced by the word in the block. -/
theorem exists_replace_error_ne :
    ∃ (t : Tree) (old replacement : NodeId) (e : StructureError) (u : Tree),
      Run (fun _ _ => True) t ∧ old < t.size ∧ replacement < t.size ∧
        Tree.replace old replacement t = .error e u ∧ u ≠ t := by
  have hrun : Run (fun _ _ => True) (left (Tree.remove 2) twoWords) := .remove 2 (.built _)
  have htorn : (left (Tree.remove 2) twoWords).TornOut 0 1 :=
    ⟨by decide, by decide, by decide, by decide⟩
  obtain ⟨u, -, hreplace, hne⟩ := hrun.sound.replace_of_tornOut htorn
  exact ⟨_, 0, 1, _, u, hrun, by decide, by decide, hreplace, hne⟩

end PhpLint.Tree
