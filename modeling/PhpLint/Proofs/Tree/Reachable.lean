import PhpLint.Proofs.Tree.Building
import PhpLint.Proofs.Tree.Editing
import PhpLint.Tree.Integrity

/-! The trees a program can get hold of: built by any steps, then grafted into and edited in any
order, each edit done or given up. All of them are sound. The integrity check adds one demand that
the edits do not look after, namely that tokens stay leaves. -/

namespace PhpLint.Tree

/-- Trees reached from building by grafts and edits that name nodes of the arena. Under the nodes
`admits` rules out nothing is put in. -/
inductive Run (admits : Tree → NodeId → Prop) : Tree → Prop
  | built (events : List BuildEvent) : Run admits (ofEvents events)
  | graft {t u : Tree} {id : NodeId} :
    Run admits t → Run admits u → id < u.size → Run admits (t.graft (u.node id)).1
  | insert {t : Tree} {parent child : NodeId} (index : Nat) :
    Run admits t → admits t parent → child < t.size →
    Run admits (left (Tree.insert parent index child) t)
  | remove {t : Tree} (id : NodeId) : Run admits t → Run admits (left (Tree.remove id) t)
  | replace {t : Tree} {replacement : NodeId} (old : NodeId) :
    Run admits t → replacement < t.size → Run admits (left (Tree.replace old replacement) t)

variable {admits : Tree → NodeId → Prop} {t : Tree} {id top c p : NodeId}

theorem Run.sound (h : Run admits t) : t.Sound := by
  induction h with
  | built events => exact sound_ofEvents events
  | graft _ _ _ ih _ => exact ih.graft _
  | insert index _ _ hc ih => exact ih.left_insert hc index
  | remove id _ ih => exact ih.left_remove id
  | replace old _ hr ih => exact ih.left_replace hr

/-- Where nothing is put in under a token, tokens are leaves. -/
theorem Run.bare (hadmits : ∀ t p, admits t p → t.isToken p = false) (h : Run admits t) :
    t.Bare := by
  induction h with
  | built events => exact bare_ofEvents events
  | graft ht hu hid iht ihu => exact iht.graft ht.sound.linked (ihu.node hu.sound.linked hid)
  | insert index ht hp hc ih => exact ih.left_insert ht.sound (hadmits _ _ hp) hc index
  | remove id ht ih => exact ih.left_remove ht.sound.linked id
  | replace old ht hr ih => exact ih.left_replace ht.sound hr

/-! The integrity check on sound trees. -/

/-- A token with something below it. -/
def isOvergrown (t : Tree) (id : NodeId) : Bool := t.isToken id && !(t.children id).isEmpty

theorem Linked.childDefect?_eq_none (h : t.Linked) {i : Nat} (hc : (t.children p)[i]? = some c) :
    t.childDefect? p c i = none := by
  obtain ⟨hu, hi⟩ := h.getElem?_eq_some_iff.1 hc
  have hcount : (t.children p).count c = 1 :=
    List.count_eq_one_of_mem (h.nodup p) (List.mem_of_getElem? hc)
  rw [Under] at hu
  simp [childDefect?, hu, hi, hcount]

theorem Sound.nodeDefect?_eq (h : t.Sound) (hid : t.Within id t.root) :
    t.nodeDefect? id = if t.isOvergrown id then some (.tokenHasChildren id) else none := by
  have hatt : t.isAttached id = true := (h.isAttached_of_within hid).trans h.isAttached_root
  have hnone : ((t.children id).zipIdx.findSome? fun c => t.childDefect? id c.1 c.2) = none := by
    rw [List.findSome?_eq_none_iff]
    rintro ⟨c, i⟩ hc
    exact h.linked.childDefect?_eq_none (List.mk_mem_zipIdx_iff_getElem?.1 hc)
  rw [nodeDefect?, hatt, hnone]
  rfl

theorem Sound.defect?_eq (h : t.Sound) :
    t.defect? = ((t.preorder t.root).find? t.isOvergrown).map .tokenHasChildren := by
  have hnodes : ∀ ids : List NodeId, (∀ id ∈ ids, t.Within id t.root) →
      ids.findSome? t.nodeDefect? = (ids.find? t.isOvergrown).map .tokenHasChildren := by
    intro ids
    induction ids with
    | nil => exact fun _ => rfl
    | cons id ids ih =>
      intro hids
      rw [List.forall_mem_cons] at hids
      rw [List.findSome?_cons, List.find?_cons, h.nodeDefect?_eq hids.1, ih hids.2]
      cases t.isOvergrown id <;> rfl
  rw [defect?, h.parent?_root]
  exact hnodes _ fun id hid => (h.linked.mem_preorder h.root_lt_size).1 hid

theorem Sound.defect?_eq_none_iff (h : t.Sound) :
    t.defect? = none ↔ ∀ id, t.Within id t.root → t.isOvergrown id = false := by
  simp only [h.defect?_eq, Option.map_eq_none_iff, List.find?_eq_none,
    h.linked.mem_preorder h.root_lt_size, Bool.not_eq_true]

theorem Bare.isOvergrown_eq_false (h : t.Bare) (id : NodeId) : t.isOvergrown id = false := by
  rw [isOvergrown]
  cases htoken : t.isToken id with
  | false => rfl
  | true => rw [h id htoken]; rfl

theorem Sound.defect?_eq_none (h : t.Sound) (hb : t.Bare) : t.defect? = none :=
  h.defect?_eq_none_iff.2 fun id _ => hb.isOvergrown_eq_false id

/-- On every run the links fit together and the flags follow them. The integrity check finds nothing
but tokens that something was put in under, and nothing at all where no edit does that. -/
theorem Run.links_and_defects (h : Run admits t) :
    (∀ c p i, (t.children p)[i]? = some c ↔ t.parent? c = some p ∧ t.index c = i) ∧
      (∀ c, ¬ Relation.TransGen t.Under c c) ∧
      (∀ top < t.size, ∀ c, c ∈ t.preorder top ↔ t.Within c top) ∧
      (∀ c, t.Within c t.root → t.isAttached c = true) ∧
      (∀ c top, t.Within c top → t.isAttached top = false → t.isAttached c = false) ∧
      t.defect? = ((t.preorder t.root).find? t.isOvergrown).map .tokenHasChildren ∧
      ((∀ t p, admits t p → t.isToken p = false) → t.defect? = none) := by
  have hs := h.sound
  refine ⟨fun c p i => hs.linked.getElem?_eq_some_iff, hs.linked.wellFounded.transGen.irrefl.irrefl,
    fun top htop c => hs.linked.mem_preorder htop, fun c hc => ?_, fun c top hc htop => ?_,
    hs.defect?_eq, fun hadmits => ?_⟩
  · exact (hs.isAttached_of_within hc).trans hs.isAttached_root
  · exact (hs.isAttached_of_within hc).trans htop
  · exact hs.defect?_eq_none (h.bare hadmits)

/-- A file with a word and a block that holds another word. -/
def twoWords : Tree :=
  ofEvents [.start .sourceFile, .token .ident "a", .start .block, .token .ident "b", .finish,
    .finish]

/-- The block taken out and put back before the first word. -/
theorem defect?_of_block_moved :
    (left (Tree.insert 3 0 2) (left (Tree.remove 2) twoWords)).defect? = none :=
  have hrun : Run (fun t p => t.isToken p = false)
      (left (Tree.insert 3 0 2) (left (Tree.remove 2) twoWords)) :=
    .insert 0 (.remove 2 (.built _)) (by decide) (by decide)
  (Run.links_and_defects hrun).2.2.2.2.2.2 fun _ _ => id

/-- The block taken out and put in under the first word. -/
theorem exists_run_defect?_ne_none :
    ∃ t, Run (fun _ _ => True) t ∧ t.defect? = some (.tokenHasChildren 0) :=
  ⟨left (Tree.insert 0 0 2) (left (Tree.remove 2) twoWords),
    .insert 0 (.remove 2 (.built _)) trivial (by decide), by decide⟩

end PhpLint.Tree
