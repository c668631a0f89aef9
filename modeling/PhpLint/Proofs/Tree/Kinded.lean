import PhpLint.Proofs.Tree.Reachable

/-! Which kinds the tokens and nodes of a tree have. Building a tree out of tokens of token kinds and
nodes of node kinds makes a tree of such; from there on a copy has the kinds of what it is a copy of,
and an edit changes no kind and no text. -/

namespace PhpLint

/-- A token has a token kind, a node has a node kind. -/
def Slot.Kinded (s : Slot) : Prop := s.text.isSome = s.kind.isToken

def Node.Kinded (n : Node) : Prop := ∀ m ∈ n.preorder, m.isToken = m.kind.isToken

def BuildEvent.Kinded : BuildEvent → Prop
  | .start kind | .startAt _ kind => kind.isToken = false
  | .token kind _ => kind.isToken = true
  | .finish | .mark _ => True

namespace Slots

def Kinded (slots : Array Slot) : Prop := ∀ id, (get slots id).Kinded

theorem kinded_empty : Kinded #[] := fun _ => rfl

variable {slots : Array Slot} {kind : Kind} {text : Option String}

theorem Kinded.alloc (h : Kinded slots) (hkind : text.isSome = kind.isToken)
    (children : List NodeId) (attached : Bool) :
    Kinded (Slots.alloc slots kind text children attached) := fun id => by
  have hadopt : (get (adopt slots slots.size children) id).Kinded = (get slots id).Kinded :=
    proj_foldl_modify
      (f := fun (c : NodeId × Nat) s => { s with parent := some slots.size, index := c.2 })
      Slot.Kinded (fun _ _ => rfl) slots children.zipIdx id
  rw [Slots.alloc, get_push]
  split
  · exact hkind
  · exact hadopt ▸ h id

/-- A copy has the kinds of what it is a copy of. -/
theorem Kinded.graft (h : Kinded slots) {n : Node} (hn : n.Kinded) :
    Kinded (Slots.graft slots n).1 := by
  induction n using Node.induction generalizing slots with
  | mk id kind text children ih =>
    have hall : ∀ (ns : List Node) {slots : Array Slot}, (∀ n ∈ ns, n ∈ children) → Kinded slots →
        Kinded (Slots.graftAll slots ns).1 := by
      intro ns
      induction ns with
      | nil => exact fun _ h => h
      | cons n ns ihs =>
        intro slots hns h
        rw [List.forall_mem_cons] at hns
        have hchild : n.Kinded := fun m hm => hn m (Node.mem_preorder_of_child hns.1 hm)
        exact ihs hns.2 (ih n hns.1 h hchild)
    exact (hall children (fun _ hc => hc) h).alloc (hn _ (Node.mem_preorder_self _)) _ false

end Slots

namespace Builder

/-- What is built and what is open has the right kinds. -/
structure Kinded (b : Builder) : Prop where
  slots : Slots.Kinded b.slots
  frames : ∀ f ∈ b.frames, f.kind.isToken = false

namespace Kinded

variable {b : Builder} {kind : Kind}

theorem empty : Builder.empty.Kinded := ⟨Slots.kinded_empty, nofun⟩

theorem of_hand {frames : List Frame} (h : ∀ f ∈ frames, f.kind.isToken = false) (id : NodeId) :
    ∀ f ∈ hand frames id, f.kind.isToken = false := by
  cases frames with
  | nil => exact h
  | cons f rest =>
    rw [List.forall_mem_cons] at h
    exact List.forall_mem_cons.2 ⟨h.1, h.2⟩

theorem start (h : b.Kinded) (hkind : kind.isToken = false) : (b.start kind).Kinded :=
  ⟨h.slots, List.forall_mem_cons.2 ⟨hkind, h.frames⟩⟩

theorem token (h : b.Kinded) (hkind : kind.isToken = true) (text : String) :
    (b.token kind text).Kinded :=
  ⟨h.slots.alloc (by rw [hkind]; rfl) [] true, of_hand h.frames _⟩

theorem startAt (h : b.Kinded) (mark : Nat) (hkind : kind.isToken = false) :
    (b.startAt mark kind).Kinded := by
  have hframes := h.frames
  rw [Builder.startAt]
  split
  next => exact h.start hkind
  next f rest hfs =>
    rw [hfs, List.forall_mem_cons] at hframes
    exact ⟨h.slots, List.forall_mem_cons.2 ⟨hkind, List.forall_mem_cons.2 hframes⟩⟩

theorem finishNode (h : b.Kinded) : b.finishNode.Kinded := by
  have hframes := h.frames
  rw [Builder.finishNode]
  split
  next => exact h
  next f rest hfs =>
    rw [hfs, List.forall_mem_cons] at hframes
    exact ⟨h.slots.alloc (by rw [hframes.1]; rfl) _ true, of_hand hframes.2 _⟩

theorem finishAll (h : b.Kinded) (n : Nat) : (b.finishAll n).Kinded := by
  induction n generalizing b with
  | zero => exact h
  | succ n ih => exact ih h.finishNode

theorem step (h : b.Kinded) (marks : Marks) {e : BuildEvent} (he : e.Kinded) :
    (Builder.step (b, marks) e).1.Kinded := by
  cases e with
  | start kind => exact h.start he
  | token kind text => exact h.token he text
  | finish => exact h.finishNode
  | mark name => exact h
  | startAt name kind =>
    rw [Builder.step]
    split
    · exact h.startAt _ he
    · exact h.start he

theorem run {events : List BuildEvent} (hevents : ∀ e ∈ events, e.Kinded) :
    (Builder.run events).1.Kinded := by
  have hfold : ∀ (events : List BuildEvent) (state : Builder × Marks), (∀ e ∈ events, e.Kinded) →
      state.1.Kinded → (events.foldl Builder.step state).1.Kinded := by
    intro events
    induction events with
    | nil => exact fun _ _ h => h
    | cons e events ih =>
      intro state hevents h
      rw [List.forall_mem_cons] at hevents
      exact ih _ hevents.2 (h.step state.2 hevents.1)
  exact hfold events _ hevents empty

end Kinded

end Builder

namespace Tree

/-- Tokens have token kinds, nodes have node kinds. -/
def Kinded (t : Tree) : Prop := ∀ id, t.isToken id = (t.kind id).isToken

theorem kinded_ofEvents {events : List BuildEvent} (hevents : ∀ e ∈ events, e.Kinded) :
    (ofEvents events).Kinded := by
  have hdone := (Builder.Kinded.run hevents).finishAll (Builder.run events).1.frames.length
  rw [ofEvents, Builder.finish]
  split
  · exact hdone.slots
  · exact (hdone.start rfl).finishNode.slots

variable {t : Tree} {parent child id : NodeId}

theorem Kinded.node (h : t.Kinded) (ht : t.Linked) (hid : id < t.size) : (t.node id).Kinded :=
  fun m hm => by
    have hholds := (ht.holds_node hid).of_mem_preorder hm
    have hslot := h m.id
    rwa [isToken, tokenText?, kind, slot_eq_get, hholds.text_eq, hholds.kind_eq] at hslot

theorem Kinded.graft (h : t.Kinded) {n : Node} (hn : n.Kinded) : (t.graft n).1.Kinded :=
  Slots.Kinded.graft h hn

/-! Edits leave kinds and texts alone. -/

theorem proj_update {β : Type} (g : Slot → β) {f : Slot → Slot} (hf : ∀ s, g (f s) = g s)
    (t : Tree) (id n : NodeId) : g ((t.update id f).slot n) = g (t.slot n) :=
  proj_foldl_update g hf t [id] n

/-- What neither links nor flags nor versions tell is not touched by a move. -/
theorem proj_moved {β : Type} (g : Slot → β)
    (hg : ∀ s parent children index version attached,
      g { s with parent, children, index, version, attached } = g s)
    (t : Tree) (parent : NodeId) (list : List NodeId → List NodeId) (child : NodeId)
    (home : Option NodeId) (flag : Bool) (n : NodeId) :
    g (((t.rewired parent list child home).flagged child flag parent).slot n) = g (t.slot n) := by
  rw [proj_flagged g fun s attached version => hg s s.parent s.children s.index version attached,
    rewired, proj_reindex g fun s index => hg s s.parent s.children index s.version s.attached]
  exact (proj_update g (fun s => hg s home s.children s.index s.version s.attached) _ child n).trans
    (proj_update g (fun s => hg s s.parent (list s.children) s.index s.version s.attached) t parent n)

theorem kinded_moved (list : List NodeId → List NodeId) (home : Option NodeId) (flag : Bool) :
    ((t.rewired parent list child home).flagged child flag parent).Kinded ↔ t.Kinded := by
  have hkind := proj_moved Slot.kind (fun _ _ _ _ _ _ => rfl) t parent list child home flag
  have htext := proj_moved Slot.text (fun _ _ _ _ _ _ => rfl) t parent list child home flag
  refine forall_congr' fun n => ?_
  rw [isToken, tokenText?, kind, hkind n, htext n]
  rfl

theorem Kinded.unlinked (h : t.Kinded) (parent : NodeId) (index : Nat) (child : NodeId) :
    (t.unlinked parent index child).Kinded := by
  rw [unlinked_eq]
  exact (kinded_moved ..).2 h

namespace Kinded

theorem left_insert (h : t.Kinded) (parent : NodeId) (index : Nat) (child : NodeId) :
    (left (insert parent index child) t).Kinded := by
  rcases insert_cases t parent index child with ⟨e, he⟩ | ⟨he, -⟩
  · rwa [left, he]
  · rw [left, he, linked_eq]
    exact (kinded_moved ..).2 h

theorem left_remove (h : t.Kinded) (id : NodeId) : (left (remove id) t).Kinded := by
  rcases remove_cases t id with ⟨e, he⟩ | ⟨parent, he, -⟩
  · rwa [left, he]
  · rw [left, he]
    exact h.unlinked parent _ id

theorem left_replace (h : t.Kinded) (old replacement : NodeId) :
    (left (replace old replacement) t).Kinded := by
  rcases replace_cases t old replacement with ⟨e, he⟩ | ⟨parent, u, -, hu, -, he⟩
  · rwa [left, he]
  · have hkinded : u.Kinded := hu ▸ h.unlinked parent _ old
    have hinsert := hkinded.left_insert parent (t.index old) replacement
    rwa [left, ← he] at hinsert

theorem isToken_of_isTrivia (h : t.Kinded) (htrivia : t.isTrivia id = true) :
    t.isToken id = true := by
  rw [h id]
  rw [isTrivia] at htrivia
  cases hkind : t.kind id <;> first | rfl | (rw [hkind] at htrivia; cases htrivia)

end Kinded

/-- Trees reached from those with a property by grafts and edits, each edit done or given up, none of
which puts anything in under a token. -/
inductive Edited (P : Tree → Prop) : Tree → Prop
  | start {t : Tree} : P t → Edited P t
  | graft {t u : Tree} {id : NodeId} :
    Edited P t → Edited P u → id < u.size → Edited P (t.graft (u.node id)).1
  | insert {t : Tree} {parent child : NodeId} (index : Nat) :
    Edited P t → t.isToken parent = false → child < t.size →
    Edited P (left (Tree.insert parent index child) t)
  | remove {t : Tree} (id : NodeId) : Edited P t → Edited P (left (Tree.remove id) t)
  | replace {t : Tree} {replacement : NodeId} (old : NodeId) :
    Edited P t → replacement < t.size → Edited P (left (Tree.replace old replacement) t)

namespace Edited

variable {P : Tree → Prop}

theorem sound_and_bare (hP : ∀ t, P t → t.Sound ∧ t.Bare) (h : Edited P t) : t.Sound ∧ t.Bare := by
  induction h with
  | start ht => exact hP _ ht
  | graft _ _ hid iht ihu =>
    exact ⟨iht.1.graft _, iht.2.graft iht.1.linked (ihu.2.node ihu.1.linked hid)⟩
  | insert index _ hp hc ih => exact ⟨ih.1.left_insert hc index, ih.2.left_insert ih.1 hp hc index⟩
  | remove id _ ih => exact ⟨ih.1.left_remove id, ih.2.left_remove ih.1.linked id⟩
  | replace old _ hr ih => exact ⟨ih.1.left_replace hr, ih.2.left_replace ih.1 hr⟩

/-- Grafts and edits keep every kind where it belongs. -/
theorem kinded (hP : ∀ t, P t → t.Sound ∧ t.Bare) (hkinded : ∀ t, P t → t.Kinded)
    (h : Edited P t) : t.Kinded := by
  induction h with
  | start ht => exact hkinded _ ht
  | graft _ hu hid iht ihu =>
    exact iht.graft (ihu.node (hu.sound_and_bare hP).1.linked hid)
  | insert index _ _ _ ih => exact ih.left_insert _ index _
  | remove id _ ih => exact ih.left_remove id
  | replace old _ _ ih => exact ih.left_replace old _

end Edited

end Tree

end PhpLint
