import PhpLint.Proofs.Fix.Splices

/-! What a plan takes out of the tree. An edit takes out one node with all that stands below it, or
none, and it puts in what is new. So the nodes that are already there stay where they stand or go,
each for good: no plan puts back what another one took out. -/

namespace PhpLint

namespace Tree

variable {t u v : Tree} {parent child id c p x y : NodeId} {gone : Option NodeId} {index : Nat}

/-- Where no node gets a parent that it had not, nothing comes to stand around a node. -/
theorem Linked.within_of_forall_under (h : t.Linked)
    (hunder : ∀ {c p}, c < t.size → u.Under c p → t.Under c p) (hc : c < t.size)
    (hw : u.Within c x) : t.Within c x := by
  induction hw using Relation.ReflTransGen.head_induction_on with
  | refl => exact .refl t x
  | head hu _ ih =>
    have hold := hunder hc hu
    exact (Within.of_under hold).trans (ih (h.parent_lt_size hold))

/-- Of the nodes of `t` those below `gone` are attached no more, and the others stand where they
stood; besides there may be new ones. -/
structure Sheds (t u : Tree) (gone : Option NodeId) : Prop where
  size_le : t.size ≤ u.size
  under_iff : ∀ {c p}, c < t.size → (u.Under c p ↔ t.Under c p ∧ c ∉ gone)
  isAttached_iff : ∀ {c}, c < t.size →
    (u.isAttached c = true ↔ t.isAttached c = true ∧ ∀ x ∈ gone, ¬ t.Within c x)

namespace Sheds

/-- What stands around a node that stays, stays around it. -/
theorem within (h : Sheds t u gone) (hkept : ∀ x ∈ gone, ¬ t.Within c x)
    (hw : t.Within c x) : u.Within c x := by
  induction hw using Relation.ReflTransGen.head_induction_on with
  | refl => exact .refl u x
  | @head c p hu _ ih =>
    have hunder := (h.under_iff hu.lt_size).2 ⟨hu, fun hgone => hkept c hgone (.refl t c)⟩
    exact (Within.of_under hunder).trans (ih fun x hx hw => hkept x hx (.trans (.of_under hu) hw))

theorem of_grafted {ns : List Node} {ids : List NodeId} (g : Grafted t u ns ids) :
    Sheds t u none where
  size_le := g.size_le
  under_iff := fun {c p} hc => by
    rw [Under, parent?, g.slot_eq c hc]
    simp [Under, parent?]
  isAttached_iff := fun {c} hc => by
    rw [isAttached, g.slot_eq c hc]
    simp [isAttached]

theorem unlinked (h : t.Linked) (hu : t.Under id parent) :
    Sheds t (t.unlinked parent (t.index id) id) (some id) where
  size_le := size_unlinked.ge
  under_iff := fun {c p} _ => by
    rw [Under, parent?_unlinked h hu]
    by_cases hc : c = id
    · simp [hc]
    · simp [hc, Ne.symm hc, Under]
  isAttached_iff := fun {c} _ => by
    rw [isAttached_unlinked h hu]
    by_cases hc : t.Within c id <;> simp [hc]

/-- Putting in a node that is new leaves the old ones alone. -/
theorem linked (h : Sheds t u gone) (ht : t.Linked) (hu : u.Sound) (hp : u.isAttached parent = true)
    (hnew : t.size ≤ child) (hc : child < u.size) (hhome : u.parent? child = none)
    (hatt : u.isAttached child = false) (hindex : index ≤ (u.children parent).length) :
    Sheds t (u.linked parent index child) gone := by
  have hm := hu.move hp hc hhome hatt hindex
  refine ⟨?_, fun {c p} hc => ?_, fun {c} hc => ?_⟩
  · rw [linked_eq, size_flagged, size_rewired]
    exact h.size_le
  · have hne : c ≠ child := (hc.trans_le hnew).ne
    rw [linked_eq, Under, parent?_flagged, ← h.under_iff hc]
    exact hm.under_rewired.trans (by simp [hne])
  · -- what stands around an old node is old
    have hout : ¬ u.Within c child := fun hw => Nat.not_lt.2 hnew (ht.lt_size_of_within
      (ht.within_of_forall_under (fun hc hu => ((h.under_iff hc).1 hu).1) hc hw) hc)
    rw [linked_eq, hm.isAttached_moved hu.linked, if_neg hout, h.isAttached_iff hc]

/-- One change after another that takes nothing out. -/
theorem trans (h : Sheds t u none) (h' : Sheds u v gone) (ht : t.Linked) : Sheds t v gone where
  size_le := h.size_le.trans h'.size_le
  under_iff := fun hc => by
    rw [h'.under_iff (hc.trans_le h.size_le), h.under_iff hc]
    simp
  isAttached_iff := fun {c} hc => by
    have hwithin : ∀ x, u.Within c x ↔ t.Within c x := fun x =>
      ⟨ht.within_of_forall_under (fun hc hu => ((h.under_iff hc).1 hu).1) hc,
        h.within (by simp)⟩
    rw [h'.isAttached_iff (hc.trans_le h.size_le), h.isAttached_iff hc]
    simp [hwithin]

end Sheds

end Tree

/-- The node that an edit takes out. -/
def Edit.removed? : Edit → Option NodeId
  | .insertSibling .. => none
  | .replace target .. | .delete target => some target

/-- Some edit takes out a node that `x` stands within. -/
def EditPlan.Detaches (t : Tree) (plan : EditPlan) (x : NodeId) : Prop :=
  ∃ e ∈ plan.edits, ∃ target ∈ e.removed?, t.Within x target

namespace Edit

open PhpLint.Tree

variable {grammar : Grammar} {t u : Tree} {e : Edit} {edits : List Edit} {x : NodeId}

theorem sheds_of_graft {text : String} {kind : FragmentKind} {grown : Tree × NodeId} (ht : t.Sound)
    (h : graft grammar t text kind = .ok grown) : Sheds t grown.1 none ∧ grown.1.Sound ∧
      t.size ≤ grown.2 ∧ grown.2 < grown.1.size := by
  obtain ⟨fragment, -, hsound, hgrafted, -, -⟩ := exists_grafted ht h
  exact ⟨.of_grafted hgrafted, hsound, hgrafted.new _ List.mem_cons_self,
    hgrafted.loose.lt_size _ List.mem_cons_self⟩

theorem sheds_of_insert {parent child : NodeId} {index : Nat} {gone : Option NodeId} {v : Tree}
    (h : Sheds t u gone) (ht : t.Linked) (hu : u.Sound) (hnew : t.size ≤ child)
    (hc : child < u.size) (hinsert : Tree.insert parent index child u = .ok () v) :
    Sheds t v gone := by
  obtain ⟨hp, -, hhome, hatt, hindex, rfl⟩ := insert_ok hinsert
  exact h.linked ht hu hp hnew hc hhome hatt hindex

theorem sheds_of_remove {i : Nat} (ht : t.Sound) (h : Tree.remove x t = .ok i u) :
    Sheds t u (some x) ∧ u.Sound := by
  obtain ⟨parent, hunder, hroot, -, -, rfl⟩ := remove_ok h
  exact ⟨.unlinked ht.linked hunder, ht.unlinked hroot hunder⟩

/-- What is put in is new, so an edit does to the nodes there are what it does by taking out. -/
theorem sheds_of_apply (ht : t.Sound) (h : e.apply grammar t = .ok u) : Sheds t u e.removed? := by
  cases e with
  | insertSibling anchor after kind text =>
    rw [apply] at h
    split at h
    next => cases h
    next =>
      split at h
      next => cases h
      next parent _ =>
        obtain ⟨⟨grown, r⟩, hgraft, hdone⟩ := exists_of_bind_eq_ok h
        obtain ⟨hsheds, hgrown, hnew, hr⟩ := sheds_of_graft ht hgraft
        obtain ⟨_, hinsert⟩ := exists_of_structurally hdone
        exact sheds_of_insert hsheds ht.linked hgrown hnew hr hinsert
  | replace target kind text =>
    rw [apply] at h
    split at h
    next => cases h
    next =>
      obtain ⟨⟨grown, r⟩, hgraft, hdone⟩ := exists_of_bind_eq_ok h
      obtain ⟨hsheds, hgrown, hnew, hr⟩ := sheds_of_graft ht hgraft
      obtain ⟨_, hreplace⟩ := exists_of_structurally hdone
      obtain ⟨-, parent, v, -, hremove, hinsert⟩ := replace_ok hreplace
      obtain ⟨hremoved, hv⟩ := sheds_of_remove hgrown hremove
      exact sheds_of_insert (hsheds.trans hremoved ht.linked) ht.linked hv hnew
        (hr.trans_le hremoved.size_le) hinsert
  | delete target =>
    rw [apply] at h
    split at h
    next => cases h
    next =>
      obtain ⟨_, hremove⟩ := exists_of_structurally h
      exact (sheds_of_remove ht hremove).1

theorem exists_staged (ht : t.Sound) (h : (e :: edits).foldlM (Edit.apply grammar) t = .ok u) :
    ∃ staged, Sheds t staged e.removed? ∧ staged.Sound ∧
      edits.foldlM (Edit.apply grammar) staged = .ok u := by
  rw [List.foldlM_cons] at h
  obtain ⟨staged, hedit, hrest⟩ := exists_of_bind_eq_ok h
  exact ⟨staged, sheds_of_apply ht hedit, ((later_of_apply hedit).sound_and_kept ht).1, hrest⟩

/-- No edit puts back a node that is out. -/
theorem isAttached_of_foldlM (ht : t.Sound) (h : edits.foldlM (Edit.apply grammar) t = .ok u)
    (hx : x < t.size) (hatt : u.isAttached x = true) : t.isAttached x = true := by
  induction edits generalizing t with
  | nil =>
    cases h
    exact hatt
  | cons e edits ih =>
    obtain ⟨staged, hsheds, hstaged, hrest⟩ := exists_staged ht h
    exact ((hsheds.isAttached_iff hx).1 (ih hstaged hrest (hx.trans_le hsheds.size_le))).1

/-- The nodes that a plan takes out are those that it is seen to take out in the tree as it was. -/
theorem isAttached_iff_of_foldlM (ht : t.Sound)
    (h : edits.foldlM (Edit.apply grammar) t = .ok u) (hx : x < t.size) :
    u.isAttached x = true ↔
      t.isAttached x = true ∧ ∀ e ∈ edits, ∀ target ∈ e.removed?, ¬ t.Within x target := by
  induction edits generalizing t with
  | nil =>
    cases h
    simp
  | cons e edits ih =>
    obtain ⟨staged, hsheds, hstaged, hrest⟩ := exists_staged ht h
    rw [ih hstaged hrest (hx.trans_le hsheds.size_le), hsheds.isAttached_iff hx,
      List.forall_mem_cons, and_assoc]
    refine and_congr_right fun _ => and_congr_right fun hkept => ?_
    -- the edits behind find around `x` what was around it at first
    have hwithin : ∀ y, staged.Within x y ↔ t.Within x y := fun y =>
      ⟨ht.linked.within_of_forall_under (fun hc hu => ((hsheds.under_iff hc).1 hu).1) hx,
        hsheds.within hkept⟩
    simp only [hwithin]

end Edit

namespace EditPlan

variable {grammar : Grammar} {t u : Tree} {plan : EditPlan} {applied : AppliedFix} {x : NodeId}

/-- A plan that is carried out takes out what it says. -/
theorem isAttached_eq_false_iff (ht : t.Sound) (h : plan.apply grammar t = .ok (u, applied))
    (hx : t.isAttached x = true) : u.isAttached x = false ↔ plan.Detaches t x := by
  have hiff := Edit.isAttached_iff_of_foldlM ht (foldlM_of_apply h) (Tree.lt_size_of_isAttached hx)
  rw [← Bool.not_eq_true, hiff, Detaches]
  simp [hx]

/-- What is out stays out, whatever plans follow. -/
theorem Leads.isAttached_eq_false (h : Leads grammar t u) (ht : t.Sound) (hx : x < t.size)
    (hout : t.isAttached x = false) : u.isAttached x = false := by
  induction h with
  | refl => exact hout
  | @tail v w hleads hplan ih =>
    obtain ⟨plan, applied, hplan⟩ := hplan
    obtain ⟨hv, hkept⟩ := Leads.later hleads |>.sound_and_kept ht
    rw [← Bool.not_eq_true] at ih ⊢
    exact fun hw => ih (Edit.isAttached_of_foldlM hv (foldlM_of_apply hplan)
      (hx.trans_le hkept.size_le) hw)

end EditPlan

end PhpLint
