import PhpLint.Proofs.Tree.Reachable

/-! What a version vouches for. An edit raises the versions of the subtree that moves and of all
nodes above the child list that changes. So a node whose version is as it was has the subtree it
had, however many edits came in between, and it has not been moved itself. -/

namespace PhpLint.Tree

variable {t u v : Tree} {parent child id c n p x y : NodeId} {list : List NodeId → List NodeId}
  {home : Option NodeId} {flag : Bool}

/-! The nodes above a node. -/

theorem chain_none (t : Tree) (fuel : Nat) : t.chain fuel none = [] := by
  cases fuel <;> rfl

theorem ancestors_of_parent?_eq_none (h : t.parent? id = none) : t.ancestors id = [] := by
  rw [ancestors, h, chain_none]

theorem chain_succ_of_length_le {fuel : Nat} {o : Option NodeId}
    (h : (t.chain (fuel + 1) o).length ≤ fuel) : t.chain (fuel + 1) o = t.chain fuel o := by
  induction fuel generalizing o with
  | zero =>
    rw [List.eq_nil_of_length_eq_zero (Nat.le_zero.1 h)]
    rfl
  | succ fuel ih =>
    cases o with
    | none => rfl
    | some id =>
      rw [chain, List.length_cons, Nat.add_le_add_iff_right] at h
      rw [chain, chain, ih h]

theorem chain_congr (hp : ∀ n, u.parent? n = t.parent? n) (fuel : Nat) (o : Option NodeId) :
    u.chain fuel o = t.chain fuel o := by
  induction fuel generalizing o with
  | zero => rfl
  | succ fuel ih =>
    cases o with
    | none => rfl
    | some id => rw [chain, chain, ih, hp]

theorem within_of_mem_chain {fuel : Nat} (hx : x ∈ t.chain fuel (some id)) : t.Within id x := by
  induction fuel generalizing id with
  | zero => cases hx
  | succ fuel ih =>
    rw [chain, List.mem_cons] at hx
    cases hx with
    | inl he => exact he ▸ .refl t id
    | inr hx =>
      cases hp : t.parent? id with
      | none =>
        rw [hp, chain_none] at hx
        cases hx
      | some p =>
        rw [hp] at hx
        exact (Within.of_under hp).trans (ih hx)

/-- A walk upwards that misses a node above has used up all its steps. -/
theorem length_chain {fuel : Nat} (hw : t.Within id x) (hx : x ∉ t.chain fuel (some id)) :
    (t.chain fuel (some id)).length = fuel := by
  induction fuel generalizing id with
  | zero => rfl
  | succ fuel ih =>
    rw [chain, List.mem_cons, not_or] at hx
    rcases hw.eq_or_under with he | ⟨p, hp, hw⟩
    · exact absurd he.symm hx.1
    · rw [Under] at hp
      rw [hp] at hx
      rw [chain, hp, List.length_cons, ih hw hx.2]

namespace Linked

theorem lt_size_of_within (h : t.Linked) (hw : t.Within c x) (hc : c < t.size) : x < t.size := by
  induction hw with
  | refl => exact hc
  | tail _ hu _ => exact h.parent_lt_size hu

theorem nodup_chain (h : t.Linked) (fuel : Nat) : (t.chain fuel (some id)).Nodup := by
  induction fuel generalizing id with
  | zero => exact List.nodup_nil
  | succ fuel ih =>
    rw [chain]
    cases hp : t.parent? id with
    | none => simp [chain_none]
    | some p =>
      exact List.nodup_cons.2 ⟨fun hid => h.not_within_of_under hp (within_of_mem_chain hid), ih⟩

/-- A node and its ancestors are all that it stands within. -/
theorem mem_cons_ancestors (h : t.Linked) (hid : id < t.size) :
    x ∈ id :: t.ancestors id ↔ t.Within id x := by
  have hchain : id :: t.ancestors id = t.chain (t.size + 1) (some id) := rfl
  rw [hchain]
  refine ⟨within_of_mem_chain, fun hw => ?_⟩
  by_contra hx
  have hlength := length_chain hw hx
  have hsub : t.chain (t.size + 1) (some id) ⊆ List.range t.size := fun y hy =>
    List.mem_range.2 (h.lt_size_of_within (within_of_mem_chain hy) hid)
  have hle := (List.subperm_of_subset (h.nodup_chain _) hsub).length_le
  rw [hlength, List.length_range] at hle
  omega

/-- The walk upwards does not run out of steps. -/
theorem ancestors_of_under (h : t.Linked) (hp : t.Under id p) :
    t.ancestors id = p :: t.ancestors p := by
  have hsize := h.parent_lt_size hp
  have hsub : t.chain (t.size + 1) (some p) ⊆ List.range t.size := fun x hx =>
    List.mem_range.2 (h.lt_size_of_within (within_of_mem_chain hx) hsize)
  have hlength := (List.subperm_of_subset (h.nodup_chain _) hsub).length_le
  rw [List.length_range, chain, List.length_cons] at hlength
  rw [Under] at hp
  rw [ancestors, ancestors, hp]
  obtain ⟨fuel, hfuel⟩ : ∃ fuel, t.size = fuel + 1 := ⟨t.size - 1, by omega⟩
  rw [hfuel] at hlength ⊢
  rw [chain, chain_succ_of_length_le (Nat.le_of_succ_le_succ hlength)]

end Linked

/-! How versions rise. -/

theorem version_of_size_le (h : t.size ≤ n) : t.version n = 0 := by
  rw [version, slot_of_size_le h]
  rfl

theorem version_update {f : Slot → Slot} (hf : ∀ s, (f s).version = s.version + 1)
    (hn : n < t.size) (id : NodeId) :
    (t.update id f).version n = t.version n + if id = n then 1 else 0 := by
  have hget : t.slots[n]? = some t.slots[n] := Array.getElem?_eq_getElem hn
  simp only [version, slot, update, Array.getElem?_modify, hget]
  split <;> simp [hf]

/-- Each mention of a node in the list raises its version by one. -/
theorem version_foldl_update {f : Slot → Slot} (hf : ∀ s, (f s).version = s.version + 1)
    (hn : n < t.size) (l : List NodeId) :
    (l.foldl (fun t n => t.update n f) t).version n = t.version n + l.count n := by
  induction l generalizing t with
  | nil => simp
  | cons id l ih =>
    have hn' : n < (t.update id f).size := by rwa [size_update]
    rw [List.foldl_cons, ih hn', version_update hf hn, List.count_cons]
    simp only [beq_iff_eq]
    omega

theorem version_flagged (hn : n < t.size) :
    (t.flagged child flag parent).version n =
      t.version n + (t.preorder child).count n + (parent :: t.ancestors parent).count n := by
  have hsize : n < (t.setAttached child flag).size := by
    rwa [setAttached, size_foldl_update]
  have hparent : ∀ n, (t.setAttached child flag).parent? n = t.parent? n :=
    proj_foldl_update Slot.parent
      (f := fun s => { s with attached := flag, version := s.version + 1 }) (fun _ => rfl) t _
  have hancestors : (t.setAttached child flag).ancestors parent = t.ancestors parent := by
    rw [ancestors, ancestors, chain_congr hparent, hparent, setAttached, size_foldl_update]
  rw [flagged, bump, version_foldl_update (fun _ => rfl) hsize, hancestors, setAttached,
    version_foldl_update (fun _ => rfl) hn]

theorem version_le_flagged (n : NodeId) :
    t.version n ≤ (t.flagged child flag parent).version n := by
  by_cases hn : n < t.size
  · rw [version_flagged hn]
    omega
  · rw [version_of_size_le (Nat.le_of_not_lt hn)]
    exact Nat.zero_le _

/-- Who keeps the version is neither part of the moved subtree nor above its place. -/
theorem Linked.apart_of_version_flagged (h : t.Linked) (hp : parent < t.size)
    (hc : child < t.size) (hn : n < t.size)
    (hv : (t.flagged child flag parent).version n = t.version n) :
    ¬ t.Within n child ∧ ¬ t.Within parent n := by
  rw [version_flagged hn] at hv
  have hchild : (t.preorder child).count n = 0 := by omega
  have hparent : (parent :: t.ancestors parent).count n = 0 := by omega
  rw [List.count_eq_zero] at hchild hparent
  exact ⟨fun hw => hchild ((h.mem_preorder hc).2 hw),
    fun hw => hparent ((h.mem_cons_ancestors hp).2 hw)⟩

/-! Nodes that keep their version. -/

/-- `u` is a later state of `t`: versions have only risen, and a node that keeps its version keeps
its flag, its children with their versions, and its place below everything above it. -/
structure Kept (t u : Tree) : Prop where
  size_le : t.size ≤ u.size
  version_le : ∀ n, t.version n ≤ u.version n
  kind_eq : ∀ n < t.size, u.kind n = t.kind n
  tokenText?_eq : ∀ n < t.size, u.tokenText? n = t.tokenText? n
  isAttached_eq : ∀ n, u.version n = t.version n → u.isAttached n = t.isAttached n
  children_eq : ∀ n < t.size, u.version n = t.version n → u.children n = t.children n
  version_eq : ∀ {c n}, t.Under c n → n < t.size → u.version n = t.version n →
    u.version c = t.version c
  parent?_eq : ∀ n < t.size, u.version n = t.version n → ∀ x, t.Within n x →
    u.parent? x = t.parent? x

namespace Kept

theorem refl (t : Tree) : Kept t t where
  size_le := Nat.le_refl _
  version_le := fun _ => Nat.le_refl _
  kind_eq := fun _ _ => rfl
  tokenText?_eq := fun _ _ => rfl
  isAttached_eq := fun _ _ => rfl
  children_eq := fun _ _ _ => rfl
  version_eq := fun _ _ _ => rfl
  parent?_eq := fun _ _ _ _ _ => rfl

theorem within (h : Kept t u) (hn : n < t.size) (hv : u.version n = t.version n)
    (hw : t.Within n x) : u.Within n x := by
  induction hw with
  | refl => exact .refl u n
  | tail hw hu ih => exact ih.trans (.of_under ((h.parent?_eq n hn hv _ hw).trans hu))

/-- A version that two steps leave alone is left alone by each. -/
theorem version_between (h : Kept t u) (h' : Kept u v) (hv : v.version n = t.version n) :
    u.version n = t.version n ∧ v.version n = u.version n := by
  have hle := h.version_le n
  have hle' := h'.version_le n
  omega

theorem trans (h : Kept t u) (h' : Kept u v) : Kept t v where
  size_le := h.size_le.trans h'.size_le
  version_le := fun n => (h.version_le n).trans (h'.version_le n)
  kind_eq := fun n hn => (h'.kind_eq n (hn.trans_le h.size_le)).trans (h.kind_eq n hn)
  tokenText?_eq := fun n hn =>
    (h'.tokenText?_eq n (hn.trans_le h.size_le)).trans (h.tokenText?_eq n hn)
  isAttached_eq := fun n hv => by
    obtain ⟨hu, hv⟩ := h.version_between h' hv
    exact (h'.isAttached_eq n hv).trans (h.isAttached_eq n hu)
  children_eq := fun n hn hv => by
    obtain ⟨hu, hv⟩ := h.version_between h' hv
    exact (h'.children_eq n (hn.trans_le h.size_le) hv).trans (h.children_eq n hn hu)
  version_eq := fun {c n} hc hn hv => by
    obtain ⟨hu, hv⟩ := h.version_between h' hv
    have hcu := h.version_eq hc hn hu
    have hunder : u.Under c n := (h.parent?_eq c hc.lt_size hcu c (.refl t c)).trans hc
    exact (h'.version_eq hunder (hn.trans_le h.size_le) hv).trans hcu
  parent?_eq := fun n hn hv x hx => by
    obtain ⟨hu, hv⟩ := h.version_between h' hv
    have hxu := h.within hn hu hx
    exact (h'.parent?_eq n (hn.trans_le h.size_le) hv x hxu).trans (h.parent?_eq n hn hu x hx)

theorem version_eq_of_within (h : Kept t u) (ht : t.Linked) (hv : u.version n = t.version n)
    (hw : t.Within x n) : u.version x = t.version x := by
  induction hw using Relation.ReflTransGen.head_induction_on with
  | refl => exact hv
  | head hu _ ih => exact h.version_eq hu (ht.parent_lt_size hu) ih

theorem holds (h : Kept t u) (ht : t.Linked) {m : Node} (hm : Slots.Holds t.slots m)
    (hv : u.version m.id = t.version m.id) : Slots.Holds u.slots m := by
  induction m using Node.induction with
  | mk id kind token children ih =>
    have hid : id < t.size := hm.lt_size
    refine .mk (hid.trans_le h.size_le) ?_ ?_ ?_ fun c hc => ?_
    · exact (h.kind_eq id hid).trans hm.kind_eq
    · exact (h.tokenText?_eq id hid).trans hm.text_eq
    · exact (h.children_eq id hid hv).trans hm.children_eq
    · exact ih c hc (hm.of_mem hc) (h.version_eq (ht.under_of_mem hm hc) hid hv)

theorem node_eq (h : Kept t u) (ht : t.Linked) (hu : u.Linked) (hn : n < t.size)
    (hv : u.version n = t.version n) : u.node n = t.node n := by
  have hid : (t.node n).id = n := id_node t n
  have hholds := h.holds ht (ht.holds_node hn) (by rwa [hid])
  have hnode := hu.node_eq hholds
  rwa [hid] at hnode

end Kept

/-! What single edits keep. -/

theorem Move.kept (h : t.Move parent list child home) (ht : t.Linked) :
    Kept t ((t.rewired parent list child home).flagged child flag parent) := by
  have hl := h.linked_rewired ht
  have hsize : (t.rewired parent list child home).size = t.size := size_rewired
  have hversion : ∀ n, (t.rewired parent list child home).version n = t.version n :=
    version_rewired h.parent_lt h.child_lt
  -- whoever keeps the version stands apart from the move, before it and after it
  have apart : ∀ n < t.size,
      ((t.rewired parent list child home).flagged child flag parent).version n = t.version n →
      ¬ (t.rewired parent list child home).Within n child ∧
        ¬ (t.rewired parent list child home).Within parent n := fun n hn hv =>
    hl.apart_of_version_flagged (hsize ▸ h.parent_lt) (hsize ▸ h.child_lt) (hsize ▸ hn)
      (hv.trans (hversion n).symm)
  have old_parent : ∀ {c n}, t.Under c n → n ≠ parent → c ≠ child := by
    rintro c n hu hn rfl
    rcases h.old_home with hnone | hsome
    · rw [Under, hnone] at hu
      cases hu
    · exact hn (hu.parent_unique hsome)
  have not_parent : ∀ n < t.size,
      ((t.rewired parent list child home).flagged child flag parent).version n = t.version n →
      n ≠ parent := by
    rintro n hn hv rfl
    exact (apart n hn hv).2 (.refl _ n)
  refine ⟨?_, fun n => ?_, fun n _ => ?_, fun n _ => ?_, fun n hv => ?_, fun n hn hv => ?_,
    fun {c n} hu hn hv => ?_, fun n hn hv x hx => ?_⟩
  · rw [size_flagged, hsize]
  · exact (hversion n).symm.le.trans (version_le_flagged n)
  · exact kind_flagged.trans (kind_rewired h.parent_lt h.child_lt n)
  · exact tokenText?_flagged.trans (tokenText?_rewired h.parent_lt h.child_lt n)
  · by_cases hn : n < t.size
    · rw [h.isAttached_moved ht, if_neg fun hw => (apart n hn hv).1 (h.within_child_iff.2 hw)]
    · have hle : t.size ≤ n := Nat.le_of_not_lt hn
      rw [isAttached_eq_false_of_size_le hle, isAttached_eq_false_of_size_le]
      rwa [size_flagged, hsize]
  · rw [children_flagged, children_rewired h.parent_lt h.child_lt, if_neg (not_parent n hn hv)]
  · -- a child that moves, or that the changed child list is below, has such a parent
    have hne := old_parent hu (not_parent n hn hv)
    have hunder := h.under_rewired.2 (.inr ⟨hne, hu⟩)
    obtain ⟨hchild, hparent⟩ := apart n hn hv
    have hc : (t.rewired parent list child home).version c = t.version c := hversion c
    rw [version_flagged (hsize ▸ hu.lt_size), hc]
    have hzero : ((t.rewired parent list child home).preorder child).count c = 0 :=
      List.count_eq_zero.2 fun hmem =>
        hchild (((hl.mem_preorder (hsize ▸ h.child_lt)).1 hmem).of_parent hunder hne)
    have hzero' : (parent :: (t.rewired parent list child home).ancestors parent).count c = 0 :=
      List.count_eq_zero.2 fun hmem =>
        hparent (((hl.mem_cons_ancestors (hsize ▸ h.parent_lt)).1 hmem).trans (.of_under hunder))
    omega
  · rw [parent?_flagged, parent?_rewired h.parent_lt h.child_lt, if_neg]
    rintro rfl
    exact (apart n hn hv).1 (h.within_child_iff.2 hx)

theorem Sound.kept_insert (h : t.Sound) (hc : child < t.size) (parent : NodeId) (index : Nat) :
    Kept t (left (Tree.insert parent index child) t) := by
  rcases insert_cases t parent index child with ⟨e, he⟩ | ⟨he, hp, -, hhome, hatt, hindex⟩
  · rw [left, he]
    exact .refl t
  · rw [left, he, linked_eq]
    exact (h.move hp hc hhome hatt hindex).kept h.linked

theorem Sound.kept_remove (h : t.Sound) (id : NodeId) : Kept t (left (Tree.remove id) t) := by
  rcases remove_cases t id with ⟨e, he⟩ | ⟨parent, he, -, -, hu⟩
  · rw [left, he]
    exact .refl t
  · rw [left, he, unlinked_eq]
    exact (Move.remove h.linked hu).kept h.linked

/-- Replacing is taking out and putting in, each of which may be the last that is done. -/
theorem Sound.kept_replace (h : t.Sound) {replacement : NodeId} (hr : replacement < t.size)
    (old : NodeId) : Kept t (left (Tree.replace old replacement) t) := by
  rcases replace_cases t old replacement with ⟨e, he⟩ | ⟨parent, u, hremove, -, -, he⟩
  · rw [left, he]
    exact .refl t
  · have hleft : left (Tree.remove old) t = u := by rw [left, hremove]
    have hkept : Kept t u := hleft ▸ h.kept_remove old
    have hsound := h.of_remove hremove
    have hinsert := hsound.kept_insert (hr.trans_le hkept.size_le) parent (t.index old)
    have heq : left (Tree.replace old replacement) t =
        left (Tree.insert parent (t.index old) replacement) u := by rw [left, left, he]
    exact heq ▸ hkept.trans hinsert

theorem Linked.kept_graft (h : t.Linked) (n : Node) : Kept t (t.graft n).1 := by
  have g := h.graft n
  have hslot : ∀ {β : Type} (f : Slot → β) (x : NodeId), x < t.size →
      f ((t.graft n).1.slot x) = f (t.slot x) := fun f x hx => congrArg f (g.slot_eq x hx)
  refine ⟨g.size_le, fun x => ?_, fun x hx => hslot Slot.kind x hx,
    fun x hx => hslot Slot.text x hx, fun x _ => ?_, fun x hx _ => hslot Slot.children x hx,
    fun {c x} hu _ _ => hslot Slot.version c hu.lt_size, fun x hx _ y hy => ?_⟩
  · by_cases hx : x < t.size
    · exact (hslot Slot.version x hx).ge
    · rw [version_of_size_le (Nat.le_of_not_lt hx)]
      exact Nat.zero_le _
  · by_cases hx : x < t.size
    · exact hslot Slot.attached x hx
    · have hle := Nat.le_of_not_lt hx
      rw [g.detached x hle, isAttached_eq_false_of_size_le hle]
  · exact hslot Slot.parent y (h.lt_size_of_within hy hx)

/-! Any number of edits. -/

/-- One edit that names nodes of the arena, done or given up. -/
inductive Step : Tree → Tree → Prop
  | graft {t : Tree} (n : Node) : Step t (t.graft n).1
  | insert {t : Tree} {child : NodeId} (parent : NodeId) (index : Nat) :
    child < t.size → Step t (left (Tree.insert parent index child) t)
  | remove {t : Tree} (id : NodeId) : Step t (left (Tree.remove id) t)
  | replace {t : Tree} {replacement : NodeId} (old : NodeId) :
    replacement < t.size → Step t (left (Tree.replace old replacement) t)

def Later : Tree → Tree → Prop := Relation.ReflTransGen Step

theorem Step.sound (h : Step t u) (ht : t.Sound) : u.Sound := by
  cases h with
  | graft n => exact ht.graft n
  | insert parent index hc => exact ht.left_insert hc index
  | remove id => exact ht.left_remove id
  | replace old hr => exact ht.left_replace hr

theorem Step.kept (h : Step t u) (ht : t.Sound) : Kept t u := by
  cases h with
  | graft n => exact ht.linked.kept_graft n
  | insert parent index hc => exact ht.kept_insert hc parent index
  | remove id => exact ht.kept_remove id
  | replace old hr => exact ht.kept_replace hr old

theorem Later.sound_and_kept (h : Later t u) (ht : t.Sound) : u.Sound ∧ Kept t u := by
  induction h with
  | refl => exact ⟨ht, .refl t⟩
  | tail _ hstep ih => exact ⟨hstep.sound ih.1, ih.2.trans (hstep.kept ih.1)⟩

theorem Kept.of_isValid (h : Kept t u) (hv : u.isValid (t.handle n) = true) :
    t.isAttached n = true ∧ n < t.size ∧ u.version n = t.version n := by
  rw [isValid, Bool.and_eq_true, beq_iff_eq] at hv
  obtain ⟨hatt, hversion⟩ := hv
  have hatt' : t.isAttached n = true := (h.isAttached_eq n hversion).symm.trans hatt
  refine ⟨hatt', ?_, hversion⟩
  by_contra hn
  rw [isAttached_eq_false_of_size_le (Nat.le_of_not_lt hn)] at hatt'
  cases hatt'

/-- A node that is what it was, and stands where it stood all the way up. -/
structure InPlace (t u : Tree) (n : NodeId) : Prop where
  isAttached : u.isAttached n = true
  node_eq : u.node n = t.node n
  parent?_eq : ∀ x, t.Within n x → u.parent? x = t.parent? x

theorem InPlace.within_iff (h : InPlace t u n) (hy : t.Within n y) :
    u.Within y x ↔ t.Within y x := by
  constructor
  · intro hw
    induction hw with
    | refl => exact .refl t y
    | tail _ hu ih =>
      rw [Under, h.parent?_eq _ (hy.trans ih)] at hu
      exact ih.trans (.of_under hu)
  · intro hw
    induction hw with
    | refl => exact .refl u y
    | tail hw hu ih => exact ih.trans (.of_under ((h.parent?_eq _ (hy.trans hw)).trans hu))

theorem Kept.inPlace (h : Kept t u) (ht : t.Linked) (hu : u.Linked)
    (hv : u.isValid (t.handle n) = true) : InPlace t u n := by
  obtain ⟨hattached, hn, hversion⟩ := h.of_isValid hv
  exact ⟨(h.isAttached_eq n hversion).trans hattached, h.node_eq ht hu hn hversion,
    h.parent?_eq n hn hversion⟩

/-- A handle that is still valid names a node that was attached when it was taken and has the very
subtree it had then: the same nodes with their kinds and texts, in the same order. -/
theorem Run.subtree_eq_of_isValid {admits : Tree → NodeId → Prop} (ht : Run admits t)
    (h : Later t u) (hv : u.isValid (t.handle n) = true) :
    t.isAttached n = true ∧ u.node n = t.node n ∧ u.preorder n = t.preorder n ∧
      u.textOf n = t.textOf n := by
  obtain ⟨hu, hkept⟩ := h.sound_and_kept ht.sound
  obtain ⟨hatt, hn, hversion⟩ := hkept.of_isValid hv
  have hnode : u.node n = t.node n := hkept.node_eq ht.sound.linked hu.linked hn hversion
  have hpreorder : ∀ {w : Tree}, w.Linked → n < w.size → w.preorder n = (w.node n).ids := by
    intro w hw hnw
    have hids := hw.preorder_eq_ids (hw.holds_node hnw)
    rwa [id_node] at hids
  refine ⟨hatt, hnode, ?_, ?_⟩
  · rw [hpreorder hu.linked (hn.trans_le hkept.size_le), hpreorder ht.sound.linked hn, hnode]
  · rw [textOf, textOf, hnode]

/-- A file with a word, a block that holds another word, and a block with a third. -/
def threeWords : Tree :=
  ofEvents [.start .sourceFile, .token .ident "a", .start .block, .token .ident "b", .finish,
    .start .block, .token .ident "c", .finish, .finish]

/-- The first block is taken out; the word before it is to be replaced by the word in that block,
which is given up half way. The second block is as it was. -/
theorem textOf_of_replace_given_up :
    ∃ u, Later threeWords u ∧ u.isValid (threeWords.handle 4) = true ∧
      u.isAttached 0 = false ∧ u.textOf 4 = threeWords.textOf 4 := by
  have hlater : Later threeWords
      (left (Tree.replace 0 1) (left (Tree.remove 2) threeWords)) :=
    .tail (.tail .refl (.remove 2)) (.replace 0 (by decide))
  have hrun : Run (fun _ _ => True) threeWords := .built _
  have hvalid : (left (Tree.replace 0 1) (left (Tree.remove 2) threeWords)).isValid
      (threeWords.handle 4) = true := by decide
  exact ⟨_, hlater, hvalid, by decide, (hrun.subtree_eq_of_isValid hlater hvalid).2.2.2⟩

end PhpLint.Tree
