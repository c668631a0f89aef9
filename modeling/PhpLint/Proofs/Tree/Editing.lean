import PhpLint.Proofs.Tree.Subtree
import PhpLint.Tree.Edit

/-! What putting in and taking out keep. Either one rewires a child list and a parent, tells the
children their places, flags the moved subtree and raises versions; the links are settled by the
rewiring alone, and the flags follow the moved subtree as it stands afterwards. -/

namespace PhpLint.Tree

variable {t : Tree} {parent child id c n p q : NodeId} {list : List NodeId → List NodeId}
  {home : Option NodeId} {flag : Bool}

/-! Flags and versions. -/

/-- The moved subtree flagged, the versions above its old or new place raised. -/
def flagged (t : Tree) (child : NodeId) (flag : Bool) (parent : NodeId) : Tree :=
  (t.setAttached child flag).bump parent

theorem proj_bump {β : Type} (g : Slot → β) (hg : ∀ s version, g { s with version } = g s)
    (t : Tree) (id n : NodeId) : g ((t.bump id).slot n) = g (t.slot n) :=
  proj_foldl_update g (fun s => hg s _) t _ n

theorem proj_flagged {β : Type} (g : Slot → β)
    (hg : ∀ s attached version, g { s with attached, version } = g s) (t : Tree)
    (child : NodeId) (flag : Bool) (parent n : NodeId) :
    g ((t.flagged child flag parent).slot n) = g (t.slot n) := by
  rw [flagged, proj_bump g fun s => hg s s.attached]
  exact proj_foldl_update g (fun s => hg s flag _) t _ n

@[simp] theorem size_flagged : (t.flagged child flag parent).size = t.size := by
  rw [flagged, bump, size_foldl_update, setAttached, size_foldl_update]

@[simp] theorem root_flagged : (t.flagged child flag parent).root = t.root := by
  rw [flagged, bump, root_foldl_update, setAttached, root_foldl_update]

@[simp] theorem children_flagged : (t.flagged child flag parent).children n = t.children n :=
  proj_flagged Slot.children (fun _ _ _ => rfl) t child flag parent n

@[simp] theorem parent?_flagged : (t.flagged child flag parent).parent? n = t.parent? n :=
  proj_flagged Slot.parent (fun _ _ _ => rfl) t child flag parent n

@[simp] theorem index_flagged : (t.flagged child flag parent).index n = t.index n :=
  proj_flagged Slot.index (fun _ _ _ => rfl) t child flag parent n

@[simp] theorem kind_flagged : (t.flagged child flag parent).kind n = t.kind n :=
  proj_flagged Slot.kind (fun _ _ _ => rfl) t child flag parent n

@[simp] theorem tokenText?_flagged : (t.flagged child flag parent).tokenText? n = t.tokenText? n :=
  proj_flagged Slot.text (fun _ _ _ => rfl) t child flag parent n

theorem Linked.flagged (h : t.Linked) : (t.flagged child flag parent).Linked :=
  h.congr (fun _ => children_flagged) (fun _ => parent?_flagged) fun _ => index_flagged

open Classical in
theorem Linked.isAttached_flagged (h : t.Linked) (hc : child < t.size) (n : NodeId) :
    (t.flagged child flag parent).isAttached n =
      if t.Within n child then flag else t.isAttached n := by
  have hs : ∀ n ∈ t.preorder child, n < t.size := fun n hn =>
    ((h.mem_preorder hc).1 hn).lt_size hc
  rw [isAttached, Tree.flagged, proj_bump Slot.attached fun _ _ => rfl, setAttached,
    slot_foldl_update (h.nodup_preorder hc) hs, apply_ite Slot.attached]
  simp only [h.mem_preorder hc, isAttached]

/-! Child lists and parents. -/

/-- The child list of `parent` changed by `list`, `child` under `home`. -/
def rewired (t : Tree) (parent : NodeId) (list : List NodeId → List NodeId) (child : NodeId)
    (home : Option NodeId) : Tree :=
  ((t.update parent fun s => { s with children := list s.children }).update child
    fun s => { s with parent := home }).reindex parent

theorem linked_eq (t : Tree) (parent : NodeId) (index : Nat) (child : NodeId) :
    t.linked parent index child =
      (t.rewired parent (·.insertIdx index child) child (some parent)).flagged child true parent :=
  rfl

theorem unlinked_eq (t : Tree) (parent : NodeId) (index : Nat) (child : NodeId) :
    t.unlinked parent index child =
      (t.rewired parent (·.eraseIdx index) child none).flagged child false parent :=
  rfl

@[simp] theorem size_rewired : (t.rewired parent list child home).size = t.size := by
  rw [rewired, size_reindex, size_update, size_update]

@[simp] theorem root_rewired : (t.rewired parent list child home).root = t.root := by
  rw [rewired, root_reindex, root_update, root_update]

section Rewired

variable (hp : parent < t.size) (hc : child < t.size)

include hp hc

theorem children_rewired (n : NodeId) :
    (t.rewired parent list child home).children n =
      if n = parent then list (t.children n) else t.children n := by
  have hc' : child < (t.update parent fun s => { s with children := list s.children }).size := by
    rwa [size_update]
  rw [children, rewired, proj_reindex Slot.children fun _ _ => rfl, slot_update hc', slot_update hp]
  split <;> split <;> rfl

theorem parent?_rewired (n : NodeId) :
    (t.rewired parent list child home).parent? n = if n = child then home else t.parent? n := by
  have hc' : child < (t.update parent fun s => { s with children := list s.children }).size := by
    rwa [size_update]
  rw [parent?, rewired, proj_reindex Slot.parent fun _ _ => rfl, slot_update hc', slot_update hp]
  split <;> split <;> rfl

/-- What no rewiring touches. -/
theorem proj_rewired {β : Type} (g : Slot → β)
    (hg : ∀ s parent children index, g { s with parent, children, index } = g s) (n : NodeId) :
    g ((t.rewired parent list child home).slot n) = g (t.slot n) := by
  have hc' : child < (t.update parent fun s => { s with children := list s.children }).size := by
    rwa [size_update]
  rw [rewired, proj_reindex g fun s _ => hg s s.parent s.children _, slot_update hc',
    slot_update hp]
  split <;> split
  · exact (hg _ _ _ _).trans (hg _ _ _ _)
  · exact hg _ _ _ _
  · exact hg _ _ _ _
  · rfl

theorem kind_rewired (n : NodeId) : (t.rewired parent list child home).kind n = t.kind n :=
  proj_rewired hp hc Slot.kind (fun _ _ _ _ => rfl) n

theorem tokenText?_rewired (n : NodeId) :
    (t.rewired parent list child home).tokenText? n = t.tokenText? n :=
  proj_rewired hp hc Slot.text (fun _ _ _ _ => rfl) n

theorem version_rewired (n : NodeId) :
    (t.rewired parent list child home).version n = t.version n :=
  proj_rewired hp hc Slot.version (fun _ _ _ _ => rfl) n

theorem isAttached_rewired (n : NodeId) :
    (t.rewired parent list child home).isAttached n = t.isAttached n :=
  proj_rewired hp hc Slot.attached (fun _ _ _ _ => rfl) n

theorem index_rewired (hnodup : (list (t.children parent)).Nodup)
    (hlt : ∀ c ∈ list (t.children parent), c < t.size) (n : NodeId) :
    (t.rewired parent list child home).index n =
      if n ∈ list (t.children parent) then (list (t.children parent)).idxOf n
      else t.index n := by
  have hchildren : (t.rewired parent list child home).children parent = _ :=
    children_rewired hp hc parent
  rw [if_pos rfl, children, rewired, proj_reindex Slot.children fun _ _ => rfl, ← children]
    at hchildren
  have hc' : child < (t.update parent fun s => { s with children := list s.children }).size := by
    rwa [size_update]
  have hi : Slot.index (((t.update parent fun s => { s with children := list s.children }).update
      child fun s => { s with parent := home }).slot n) = t.index n := by
    rw [slot_update hc', slot_update hp]
    split <;> split <;> rfl
  rw [index, rewired, slot_reindex (by rwa [hchildren]) (by simpa [hchildren] using hlt), hchildren]
  split
  · rfl
  · exact hi

end Rewired

/-- `child` moves between `parent` and nobody, and `list` does to the child list what that asks. -/
structure Move (t : Tree) (parent : NodeId) (list : List NodeId → List NodeId) (child : NodeId)
    (home : Option NodeId) : Prop where
  parent_lt : parent < t.size
  child_lt : child < t.size
  old_home : t.parent? child = none ∨ t.parent? child = some parent
  new_home : home = none ∨ home = some parent
  mem_list : ∀ c, c ∈ list (t.children parent) ↔
    c = child ∧ home = some parent ∨ c ≠ child ∧ t.Under c parent
  nodup : (list (t.children parent)).Nodup
  not_within : home = some parent → ¬ t.Within parent child

namespace Move

theorem insert (h : t.Linked) (hp : parent < t.size) (hc : child < t.size) {index : Nat}
    (hindex : index ≤ (t.children parent).length) (hhome : t.parent? child = none)
    (hw : ¬ t.Within parent child) :
    t.Move parent (·.insertIdx index child) child (some parent) where
  parent_lt := hp
  child_lt := hc
  old_home := .inl hhome
  new_home := .inr rfl
  mem_list := fun c => by
    have hne : t.Under c parent → c ≠ child := by
      rintro hu rfl
      rw [Under, hhome] at hu
      cases hu
    rw [List.mem_insertIdx hindex, h.mem_children, and_iff_left rfl, and_iff_right_of_imp hne]
  nodup := by
    have hnot : child ∉ t.children parent := fun hmem => by
      have hu := h.mem_children.1 hmem
      rw [Under, hhome] at hu
      cases hu
    exact (List.perm_insertIdx child (t.children parent) hindex).nodup_iff.2
      (List.nodup_cons.2 ⟨hnot, h.nodup parent⟩)
  not_within := fun _ => hw

theorem remove (h : t.Linked) (hu : t.Under child parent) :
    t.Move parent (·.eraseIdx (t.index child)) child none where
  parent_lt := h.parent_lt_size hu
  child_lt := hu.lt_size
  old_home := .inr hu
  new_home := .inl rfl
  mem_list := fun c => by
    rw [h.index_eq hu, ← List.erase_eq_eraseIdx_of_idxOf rfl, (h.nodup parent).mem_erase_iff,
      h.mem_children]
    simp
  nodup := (h.nodup parent).sublist (List.eraseIdx_sublist ..)
  not_within := fun hn => by cases hn

theorem under_rewired (h : t.Move parent list child home) :
    (t.rewired parent list child home).Under c p ↔
      c = child ∧ home = some p ∨ c ≠ child ∧ t.Under c p := by
  rw [Under, parent?_rewired h.parent_lt h.child_lt]
  by_cases hc : c = child
  · simp [hc]
  · simp [hc, Under]

/-- A subtree moves as it is. -/
theorem within_child_iff (h : t.Move parent list child home) :
    (t.rewired parent list child home).Within n child ↔ t.Within n child := by
  constructor
  · intro hw
    induction hw using Relation.ReflTransGen.head_induction_on with
    | refl => exact .refl t child
    | head hu _ ih =>
      rcases h.under_rewired.1 hu with ⟨rfl, -⟩ | ⟨-, hu⟩
      · exact .refl t _
      · exact (Within.of_under hu).trans ih
  · intro hw
    induction hw using Relation.ReflTransGen.head_induction_on with
    | refl => exact .refl _ child
    | @head n p hu _ ih =>
      by_cases hn : n = child
      · exact hn ▸ .refl _ n
      · exact (Within.of_under (h.under_rewired.2 (.inr ⟨hn, hu⟩))).trans ih

theorem wellFounded_rewired (h : t.Move parent list child home) (ht : t.Linked) :
    WellFounded (t.rewired parent list child home).Under := by
  have below : ∀ p, t.Within p child → home = some parent →
      Acc (t.rewired parent list child home).Under p := by
    intro p
    induction p using ht.wellFounded.induction with
    | _ p ih =>
      intro hp hhome
      refine Acc.intro p fun c hc => ?_
      rcases h.under_rewired.1 hc with ⟨-, hhp⟩ | ⟨-, hu⟩
      · have hpp : parent = p := Option.some.inj (hhome.symm.trans hhp)
        exact absurd (hpp ▸ hp) (h.not_within hhome)
      · exact ih c hu (hp.head hu) hhome
  refine ⟨fun p => ?_⟩
  induction p using ht.wellFounded.induction with
  | _ p ih =>
    refine Acc.intro p fun c hc => ?_
    rcases h.under_rewired.1 hc with ⟨rfl, hhp⟩ | ⟨-, hu⟩
    · rcases h.new_home with hn | hs
      · rw [hn] at hhp
        cases hhp
      · exact below c (.refl t c) hs
    · exact ih c hu

theorem linked_rewired (h : t.Move parent list child home) (ht : t.Linked) :
    (t.rewired parent list child home).Linked := by
  have hlt : ∀ c ∈ list (t.children parent), c < t.size := fun c hc => by
    rcases (h.mem_list c).1 hc with ⟨rfl, -⟩ | ⟨-, hu⟩
    · exact h.child_lt
    · exact hu.lt_size
  have apart : ∀ q, q ≠ parent → ¬ t.Under child q ∧ home ≠ some q := by
    refine fun q hq => ⟨fun hu => ?_, fun hh => ?_⟩
    · rcases h.old_home with hn | hs
      · rw [Under, hn] at hu
        cases hu
      · exact hq (Under.parent_unique hu hs)
    · rcases h.new_home with hn | hs
      · rw [hn] at hh
        cases hh
      · exact hq (Option.some.inj (hh.symm.trans hs))
  refine ⟨fun {q c} => ?_, fun q => ?_, fun {q c} hu => ?_, h.wellFounded_rewired ht⟩
  · rw [children_rewired h.parent_lt h.child_lt, h.under_rewired]
    split
    next hq => rw [hq, h.mem_list]
    next hq =>
      rw [ht.mem_children, or_iff_right fun hh => (apart q hq).2 hh.2, and_iff_right_of_imp]
      rintro hu rfl
      exact (apart q hq).1 hu
  · rw [children_rewired h.parent_lt h.child_lt]
    split
    next hq => exact hq ▸ h.nodup
    next hq => exact ht.nodup q
  · rw [index_rewired h.parent_lt h.child_lt h.nodup hlt, children_rewired h.parent_lt h.child_lt]
    rw [h.under_rewired] at hu
    by_cases hq : q = parent
    · rw [hq] at hu ⊢
      rw [if_pos ((h.mem_list c).2 hu), if_pos rfl]
    · obtain ⟨hne, hcq⟩ := hu.resolve_left fun hh => (apart q hq).2 hh.2
      have hnot : c ∉ list (t.children parent) := fun hmem => by
        rcases (h.mem_list c).1 hmem with ⟨hc, -⟩ | ⟨-, hcp⟩
        · exact hne hc
        · exact hq (hcq.parent_unique hcp)
      rw [if_neg hnot, if_neg hq, ht.index_eq hcq]

open Classical in
theorem isAttached_moved (h : t.Move parent list child home) (ht : t.Linked) (n : NodeId) :
    ((t.rewired parent list child home).flagged child flag parent).isAttached n =
      if t.Within n child then flag else t.isAttached n := by
  rw [(h.linked_rewired ht).isAttached_flagged (by rw [size_rewired]; exact h.child_lt),
    isAttached_rewired h.parent_lt h.child_lt]
  exact if_congr h.within_child_iff rfl rfl

/-- Whoever is flagged like the new parent leaves a sound tree behind, unless it is the root. -/
theorem sound (h : t.Move parent list child home) (ht : t.Sound) (hroot : child ≠ t.root)
    (hflag : home = some parent → t.isAttached parent = flag) :
    ((t.rewired parent list child home).flagged child flag parent).Sound := by
  have hrootWithin : ¬ t.Within t.root child := fun hw => by
    rcases hw.eq_or_under with he | ⟨p, hu, -⟩
    · exact hroot he.symm
    · exact ht.ne_root_of_under hu rfl
  refine ⟨(h.linked_rewired ht.linked).flagged, ?_, ?_, ?_, fun {c p} hu => ?_⟩
  · rw [root_flagged, root_rewired, size_flagged, size_rewired]
    exact ht.root_lt_size
  · rw [root_flagged, root_rewired, parent?_flagged, parent?_rewired h.parent_lt h.child_lt,
      if_neg hroot.symm, ht.parent?_root]
  · rw [root_flagged, root_rewired, h.isAttached_moved ht.linked, if_neg hrootWithin,
      ht.isAttached_root]
  · rw [Under, parent?_flagged] at hu
    rw [h.isAttached_moved ht.linked, h.isAttached_moved ht.linked]
    rcases h.under_rewired.1 hu with ⟨rfl, hhp⟩ | ⟨hne, hold⟩
    · -- `child` itself is flagged, and its new parent had the flag before
      have hhome : home = some parent := h.new_home.resolve_left fun hn => by
        rw [hn] at hhp
        cases hhp
      have hpp : parent = p := Option.some.inj (hhome.symm.trans hhp)
      rw [if_pos (.refl t c), ← hpp, hflag hhome, ite_self]
    · have hiff : t.Within c child ↔ t.Within p child :=
        ⟨fun hw => hw.of_parent hold hne, fun hw => hw.head hold⟩
      rw [ht.isAttached_eq hold]
      by_cases hw : t.Within p child
      · rw [if_pos hw, if_pos (hiff.2 hw)]
      · rw [if_neg hw, if_neg fun hw' => hw (hiff.1 hw')]

theorem bare (h : t.Move parent list child home) (ht : t.Bare)
    (hparent : t.isToken parent → list (t.children parent) = []) :
    ((t.rewired parent list child home).flagged child flag parent).Bare := by
  intro id htoken
  rw [isToken, tokenText?_flagged, tokenText?_rewired h.parent_lt h.child_lt] at htoken
  rw [children_flagged, children_rewired h.parent_lt h.child_lt]
  split
  next hid => exact hid ▸ hparent (hid ▸ htoken)
  next => exact ht id htoken

end Move

/-! The edits themselves. -/

theorem estateGet_eq (t : Tree) :
    (EStateM.get t : EStateM.Result StructureError Tree Tree) = .ok t t := rfl

theorem insert_eq (t : Tree) (parent : NodeId) (index : Nat) (child : NodeId) :
    insert parent index child t =
      if !t.isAttached parent then .error (.notAttached parent) t
      else if child = t.root then .error (.isRoot child) t
      else if (t.parent? child).isSome || t.isAttached child then .error (.alreadyAttached child) t
      else if (t.children parent).length < index then .error (.outOfBounds parent index) t
      else .ok () (t.linked parent index child) := by
  simp only [insert, bind, EStateM.bind, get, getThe, MonadStateOf.get, estateGet_eq, throw,
    throwThe, MonadExceptOf.throw]
  split
  · rfl
  split
  · rfl
  split
  · rfl
  split <;> rfl

theorem remove_eq (t : Tree) (id : NodeId) :
    remove id t =
      if id = t.root then .error (.isRoot id) t
      else if !t.isAttached id then .error (.notAttached id) t
      else match t.parent? id with
        | none => .error (.notAttached id) t
        | some parent => .ok (t.index id) (t.unlinked parent (t.index id) id) := by
  simp only [remove, bind, EStateM.bind, get, getThe, MonadStateOf.get, estateGet_eq, throw,
    throwThe, MonadExceptOf.throw]
  split
  · rfl
  split
  · rfl
  cases t.parent? id <;> rfl

theorem replace_eq (t : Tree) (old replacement : NodeId) :
    replace old replacement t =
      if t.isAttached replacement then .error (.alreadyAttached replacement) t
      else match t.parent? old with
        | none => .error (.isRoot old) t
        | some parent => match remove old t with
          | .error e u => .error e u
          | .ok index u => insert parent index replacement u := by
  simp only [replace, bind, EStateM.bind, get, getThe, MonadStateOf.get, estateGet_eq, throw,
    throwThe, MonadExceptOf.throw]
  split
  · rfl
  cases t.parent? old with
  | none => rfl
  | some parent =>
    change EStateM.bind (remove old) _ t = _
    rw [EStateM.bind]
    cases remove old t <;> rfl

/-- Putting in refuses and changes nothing, or it links as asked. -/
theorem insert_cases (t : Tree) (parent : NodeId) (index : Nat) (child : NodeId) :
    (∃ e, insert parent index child t = .error e t) ∨
      insert parent index child t = .ok () (t.linked parent index child) ∧
        t.isAttached parent = true ∧ child ≠ t.root ∧ t.parent? child = none ∧
        t.isAttached child = false ∧ index ≤ (t.children parent).length := by
  rw [insert_eq]
  split
  · exact .inl ⟨_, rfl⟩
  split
  · exact .inl ⟨_, rfl⟩
  split
  · exact .inl ⟨_, rfl⟩
  split
  · exact .inl ⟨_, rfl⟩
  · refine .inr ⟨rfl, ?_⟩
    simp_all

theorem remove_cases (t : Tree) (id : NodeId) :
    (∃ e, remove id t = .error e t) ∨
      ∃ parent, remove id t = .ok (t.index id) (t.unlinked parent (t.index id) id) ∧
        id ≠ t.root ∧ t.isAttached id = true ∧ t.Under id parent := by
  rw [remove_eq]
  by_cases hroot : id = t.root
  · rw [if_pos hroot]
    exact .inl ⟨_, rfl⟩
  rw [if_neg hroot]
  cases hatt : t.isAttached id with
  | false => exact .inl ⟨_, rfl⟩
  | true =>
    cases hparent : t.parent? id with
    | none => exact .inl ⟨_, rfl⟩
    | some parent => exact .inr ⟨parent, rfl, hroot, rfl, hparent⟩

/-- The tree an edit leaves behind, be it done or given up. -/
def left {α : Type} (edit : TreeEdit α) (t : Tree) : Tree :=
  match edit t with
  | .ok _ u => u
  | .error _ u => u

/-- Replacing stops with the tree as it was, or puts in where the old node was taken out. -/
theorem replace_cases (t : Tree) (old replacement : NodeId) :
    (∃ e, replace old replacement t = .error e t) ∨
      ∃ parent u, remove old t = .ok (t.index old) u ∧ u = t.unlinked parent (t.index old) old ∧
        t.Under old parent ∧
        replace old replacement t = insert parent (t.index old) replacement u := by
  rw [replace_eq]
  split
  · exact .inl ⟨_, rfl⟩
  split
  · exact .inl ⟨_, rfl⟩
  next parent hparent =>
    rcases remove_cases t old with ⟨e, he⟩ | ⟨q, hq, -, -, hu⟩
    · exact .inl ⟨e, by rw [he]⟩
    · obtain rfl : parent = q := Under.parent_unique hparent hu
      exact .inr ⟨parent, _, hq, rfl, hparent, by rw [hq]⟩

/-! Edits that are done: what they started from, and what they come to. -/

section Done

variable {u : Tree} {index : Nat} {old replacement : NodeId}

theorem insert_ok (hinsert : insert parent index child t = .ok () u) :
    t.isAttached parent = true ∧ child ≠ t.root ∧ t.parent? child = none ∧
      t.isAttached child = false ∧ index ≤ (t.children parent).length ∧
      t.linked parent index child = u := by
  rcases insert_cases t parent index child with ⟨e, he⟩ | ⟨he, hp, hroot, hhome, hatt, hindex⟩
  · rw [he] at hinsert
    cases hinsert
  · rw [he] at hinsert
    exact ⟨hp, hroot, hhome, hatt, hindex, (EStateM.Result.ok.inj hinsert).2⟩

theorem remove_ok (hremove : remove id t = .ok index u) :
    ∃ parent, t.Under id parent ∧ id ≠ t.root ∧ t.isAttached id = true ∧ t.index id = index ∧
      t.unlinked parent (t.index id) id = u := by
  rcases remove_cases t id with ⟨e, he⟩ | ⟨parent, he, hroot, hatt, hu⟩
  · rw [he] at hremove
    cases hremove
  · rw [he] at hremove
    exact ⟨parent, hu, hroot, hatt, EStateM.Result.ok.inj hremove⟩

theorem replace_ok (hreplace : replace old replacement t = .ok () u) :
    t.isAttached replacement = false ∧ ∃ parent v, t.Under old parent ∧
      remove old t = .ok (t.index old) v ∧
      insert parent (t.index old) replacement v = .ok () u := by
  constructor
  · by_contra hattached
    rw [replace_eq, if_pos (Bool.eq_true_of_not_eq_false hattached)] at hreplace
    cases hreplace
  · rcases replace_cases t old replacement with ⟨e, he⟩ | ⟨parent, v, hremove, -, hu, he⟩
    · rw [he] at hreplace
      cases hreplace
    · exact ⟨parent, v, hu, hremove, he ▸ hreplace⟩

end Done

namespace Sound

/-- Nobody is put in below itself. -/
theorem move (h : t.Sound) {index : Nat} (hp : t.isAttached parent = true)
    (hc : child < t.size) (hhome : t.parent? child = none) (hatt : t.isAttached child = false)
    (hindex : index ≤ (t.children parent).length) :
    t.Move parent (·.insertIdx index child) child (some parent) := by
  have hlt : parent < t.size := by
    by_contra hge
    rw [isAttached_eq_false_of_size_le (Nat.le_of_not_lt hge)] at hp
    cases hp
  -- the flags keep the new parent out of the subtree that moves
  have hw : ¬ t.Within parent child := fun hw => by
    rw [h.isAttached_of_within hw, hatt] at hp
    cases hp
  exact Move.insert h.linked hlt hc hindex hhome hw

theorem unlinked (h : t.Sound) (hroot : id ≠ t.root) (hu : t.Under id parent) :
    (t.unlinked parent (t.index id) id).Sound := by
  rw [unlinked_eq]
  exact (Move.remove h.linked hu).sound h hroot fun hn => by cases hn

theorem left_insert (h : t.Sound) (hc : child < t.size) (index : Nat) :
    (left (insert parent index child) t).Sound := by
  rcases insert_cases t parent index child with ⟨e, he⟩ | ⟨he, hp, hroot, hhome, hatt, hindex⟩
  · rwa [left, he]
  · rw [left, he, linked_eq]
    exact (h.move hp hc hhome hatt hindex).sound h hroot fun _ => hp

theorem left_remove (h : t.Sound) (id : NodeId) : (left (remove id) t).Sound := by
  rcases remove_cases t id with ⟨e, he⟩ | ⟨parent, he, hroot, -, hu⟩
  · rwa [left, he]
  · rw [left, he]
    exact h.unlinked hroot hu

variable {u : Tree} {index : Nat} {old replacement : NodeId}

theorem of_insert (h : t.Sound) (hc : child < t.size)
    (hinsert : insert parent index child t = .ok () u) : u.Sound := by
  have hs : (left (insert parent index child) t).Sound := h.left_insert hc index
  rwa [left, hinsert] at hs

theorem of_remove (h : t.Sound) (hremove : remove id t = .ok index u) : u.Sound := by
  have hs := h.left_remove id
  rwa [left, hremove] at hs

theorem left_replace (h : t.Sound) (hr : replacement < t.size) :
    (left (replace old replacement) t).Sound := by
  rcases replace_cases t old replacement with ⟨e, he⟩ | ⟨parent, u, hremove, hu, hold, he⟩
  · rwa [left, he]
  · have hs := h.of_remove hremove
    have hsize : replacement < u.size := by rwa [hu, unlinked_eq, size_flagged, size_rewired]
    have : (left (insert parent (t.index old) replacement) u).Sound := hs.left_insert hsize _
    rwa [left, ← he] at this

theorem of_replace (h : t.Sound) (hr : replacement < t.size)
    (hreplace : replace old replacement t = .ok () u) : u.Sound := by
  have hs : (left (replace old replacement) t).Sound := h.left_replace hr
  rwa [left, hreplace] at hs

end Sound

namespace Bare

theorem unlinked (h : t.Bare) (ht : t.Linked) (hu : t.Under id parent) :
    (t.unlinked parent (t.index id) id).Bare := by
  rw [unlinked_eq]
  exact (Move.remove ht hu).bare h fun htoken => by rw [h parent htoken, List.eraseIdx_nil]

theorem left_remove (h : t.Bare) (ht : t.Linked) (id : NodeId) : (left (remove id) t).Bare := by
  rcases remove_cases t id with ⟨e, he⟩ | ⟨parent, he, -, -, hu⟩
  · rwa [left, he]
  · rw [left, he]
    exact h.unlinked ht hu

/-- Tokens stay leaves as long as nothing is put in under one. -/
theorem left_insert (h : t.Bare) (ht : t.Sound) (hparent : t.isToken parent = false)
    (hc : child < t.size) (index : Nat) : (left (insert parent index child) t).Bare := by
  rcases insert_cases t parent index child with ⟨e, he⟩ | ⟨he, hp, -, hhome, hatt, hindex⟩
  · rwa [left, he]
  · rw [left, he, linked_eq]
    refine (ht.move hp hc hhome hatt hindex).bare h fun htoken => ?_
    rw [hparent] at htoken
    cases htoken

/-- The place of a node is never under a token, so replacing cannot fill one either. -/
theorem left_replace (h : t.Bare) (ht : t.Sound) {old replacement : NodeId}
    (hr : replacement < t.size) : (left (replace old replacement) t).Bare := by
  rcases replace_cases t old replacement with ⟨e, he⟩ | ⟨parent, u, hremove, hu, hold, he⟩
  · rwa [left, he]
  · have hs := ht.of_remove hremove
    have hm := Move.remove ht.linked hold
    have hparent : u.isToken parent = false := by
      rw [hu, unlinked_eq, isToken, tokenText?_flagged,
        tokenText?_rewired hm.parent_lt hm.child_lt, ← isToken]
      by_contra htoken
      have hmem := ht.linked.mem_children.2 hold
      rw [h parent (by simpa using htoken)] at hmem
      cases hmem
    have hsize : replacement < u.size := by rwa [hu, unlinked_eq, size_flagged, size_rewired]
    have := (hu ▸ h.unlinked ht.linked hold : u.Bare).left_insert hs hparent hsize (t.index old)
    rwa [left, ← he] at this

end Bare

end PhpLint.Tree
