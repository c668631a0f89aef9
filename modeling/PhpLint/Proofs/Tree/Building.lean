import PhpLint.Proofs.Tree.Growing
import PhpLint.Tree.Builder

/-! What building keeps, whatever the order of the steps. The nodes that still wait in open nodes,
and the last one closed outside every other, stand under nobody and differ from each other; a mark
from another place only moves the border between two such lists. -/

namespace PhpLint

theorem Tree.Loose.of_subperm {t : Tree} {ids ids' : List NodeId} (h : t.Loose ids)
    (hs : ids'.Subperm ids) : t.Loose ids' := by
  obtain ⟨l, hperm, hsub⟩ := hs
  have hmem : ∀ c ∈ ids', c ∈ ids := fun c hc => hsub.subset (hperm.mem_iff.2 hc)
  exact ⟨hperm.nodup_iff.1 (h.nodup.sublist hsub), fun c hc => h.lt_size c (hmem c hc),
    fun c hc => h.parent?_eq c (hmem c hc)⟩

/-- A new node takes the place of its children among the nodes without a parent. -/
theorem Tree.Loose.grow {t : Tree} {kind : Kind} {text : Option String}
    {children others : List NodeId} {attached : Bool} (h : t.Loose (children ++ others)) :
    (t.grow kind text children attached).Loose (t.size :: others) := by
  have hchildren : t.Loose children := h.of_subperm (List.sublist_append_left ..).subperm
  have hothers : t.Loose others := h.of_subperm (List.sublist_append_right ..).subperm
  have hapart := List.disjoint_of_nodup_append h.nodup
  refine ⟨List.nodup_cons.2 ⟨hothers.not_mem (Nat.le_refl _), hothers.nodup⟩, ?_, ?_⟩
  · rw [size_grow]
    exact List.forall_mem_cons.2
      ⟨Nat.lt_succ_self _, fun c hc => Nat.lt_succ_of_lt (hothers.lt_size c hc)⟩
  · refine List.forall_mem_cons.2 ⟨?_, fun c hc => ?_⟩
    · rw [parent?_grow hchildren, if_neg (hchildren.not_mem (Nat.le_refl _)),
        parent?_of_size_le (Nat.le_refl _)]
    · rw [parent?_grow hchildren, if_neg fun hmem => hapart hmem hc]
      exact hothers.parent?_eq c hc

namespace Builder

/-- The nodes built so far, the first of them for a root. -/
def arena (b : Builder) : Tree := ⟨b.slots, 0⟩

/-- The nodes that wait to be adopted. -/
def waiting (frames : List Frame) : List NodeId := frames.flatMap Frame.children

structure Sound (b : Builder) : Prop where
  linked : b.arena.Linked
  loose : b.arena.Loose (b.last.toList ++ waiting b.frames)
  attached : ∀ id < b.arena.size, b.arena.isAttached id = true
  bare : b.arena.Bare

variable {b : Builder} {f : Frame} {rest frames : List Frame} {id : NodeId}

theorem waiting_cons (f : Frame) (rest : List Frame) :
    waiting (f :: rest) = f.children ++ waiting rest := List.flatMap_cons ..

theorem waiting_hand_subperm (frames : List Frame) (id : NodeId) :
    (waiting (hand frames id)).Subperm (id :: waiting frames) := by
  cases frames with
  | nil => exact List.nil_subperm
  | cons f rest =>
    have hperm :
        (f.children ++ [id] ++ waiting rest).Perm (id :: (f.children ++ waiting rest)) := by
      rw [List.append_assoc]
      exact List.perm_middle
    rw [hand, waiting_cons, waiting_cons]
    exact hperm.subperm

theorem waiting_split (f : Frame) (rest : List Frame) (mark : Nat) (kind : Kind) :
    (waiting (⟨kind, f.children.drop mark⟩ ::
        { f with children := f.children.take mark } :: rest)).Perm
      (waiting (f :: rest)) := by
  have hperm : (f.children.drop mark ++ f.children.take mark).Perm f.children :=
    List.perm_append_comm.trans (.of_eq (List.take_append_drop ..))
  simp only [waiting_cons, ← List.append_assoc]
  exact hperm.append_right _

namespace Sound

theorem empty : Builder.empty.Sound where
  linked := by
    have hnone : ∀ c p, ¬ Builder.empty.arena.Under c p := fun c p hu =>
      Nat.not_lt_zero c hu.lt_size
    have hnil : ∀ p, Builder.empty.arena.children p = [] := fun p =>
      Tree.children_of_size_le (Nat.zero_le p)
    refine ⟨fun {p c} => ?_, fun p => ?_, fun {p c} hu => absurd hu (hnone c p), ⟨fun p => ⟨p, ?_⟩⟩⟩
    · simp [hnil, hnone]
    · simp [hnil]
    · exact fun c hu => absurd hu (hnone c p)
  loose := ⟨List.nodup_nil, by simp [Builder.empty, waiting], by simp [Builder.empty, waiting]⟩
  attached := fun id hid => absurd hid (Nat.not_lt_zero id)
  bare := fun id _ => Tree.children_of_size_le (Nat.zero_le id)

/-- Taking on a node in place of the waiting nodes it adopts. -/
theorem grow (h : b.Sound) {b' : Builder} {kind : Kind} {text : Option String}
    {children others : List NodeId} (harena : b'.arena = b.arena.grow kind text children true)
    (hloose : b.arena.Loose (children ++ others))
    (hwait : (b'.last.toList ++ waiting b'.frames).Subperm (b.arena.size :: others))
    (hbare : text.isSome → children = []) : b'.Sound := by
  have hchildren : b.arena.Loose children :=
    hloose.of_subperm (List.sublist_append_left ..).subperm
  refine ⟨?_, ?_, fun id hid => ?_, fun id htoken => ?_⟩
  · rw [harena]
    exact h.linked.grow hchildren
  · rw [harena]
    exact hloose.grow.of_subperm hwait
  · rw [harena, Tree.isAttached_grow hchildren]
    split
    next => rfl
    next hne =>
      rw [harena, Tree.size_grow] at hid
      exact h.attached id (Nat.lt_of_le_of_ne (Nat.le_of_lt_succ hid) hne)
  · rw [harena, Tree.isToken, Tree.tokenText?_grow hchildren] at htoken
    rw [harena, Tree.children_grow hchildren]
    split
    next hid => exact hbare (by rwa [if_pos hid] at htoken)
    next hid => exact h.bare id (by rwa [if_neg hid] at htoken)

/-- Steps that only open a node or sort the waiting ones anew. -/
theorem of_slots_eq (h : b.Sound) {b' : Builder} (hslots : b'.slots = b.slots)
    (hlast : b'.last = b.last) (hwait : (waiting b'.frames).Perm (waiting b.frames)) :
    b'.Sound := by
  have harena : b'.arena = b.arena := by rw [arena, hslots, arena]
  refine ⟨harena ▸ h.linked, ?_, harena ▸ h.attached, harena ▸ h.bare⟩
  rw [harena, hlast]
  exact h.loose.of_subperm (hwait.append_left _).subperm

theorem start (h : b.Sound) (kind : Kind) : (b.start kind).Sound :=
  h.of_slots_eq rfl rfl (.refl _)

theorem token (h : b.Sound) (kind : Kind) (text : String) : (b.token kind text).Sound := by
  have hloose : b.arena.Loose ([] ++ (b.last.toList ++ waiting b.frames)) := h.loose
  refine h.grow rfl hloose ?_ fun _ => rfl
  have hwait := (List.subperm_append_left b.last.toList).2
    (waiting_hand_subperm b.frames b.slots.size)
  exact hwait.trans List.perm_middle.subperm

theorem startAt (h : b.Sound) (mark : Nat) (kind : Kind) : (b.startAt mark kind).Sound := by
  rw [Builder.startAt]
  split
  next => exact h.start kind
  next f rest hf =>
    refine h.of_slots_eq rfl rfl ?_
    rw [hf]
    exact waiting_split f rest mark kind

theorem finishNode (h : b.Sound) : b.finishNode.Sound := by
  rw [Builder.finishNode]
  split
  next => exact h
  next f rest hf =>
    have hperm : (f.children ++ (b.last.toList ++ waiting rest)).Perm
        (b.last.toList ++ waiting b.frames) := by
      rw [hf, waiting_cons]
      exact List.perm_append_comm_assoc ..
    refine h.grow rfl (h.loose.of_subperm hperm.subperm) ?_ (fun hs : none.isSome => by cases hs)
    cases rest with
    | nil => exact (List.nil_sublist _).cons_cons _ |>.subperm
    | cons g rest =>
      have hwait := (List.subperm_append_left b.last.toList).2
        (waiting_hand_subperm (g :: rest) b.slots.size)
      exact hwait.trans List.perm_middle.subperm

theorem finishAll (h : b.Sound) (n : Nat) : (b.finishAll n).Sound := by
  induction n generalizing b with
  | zero => exact h
  | succ n ih => exact ih h.finishNode

theorem step (h : b.Sound) (marks : Marks) (e : BuildEvent) :
    (Builder.step (b, marks) e).1.Sound := by
  cases e with
  | start kind => exact h.start kind
  | token kind text => exact h.token kind text
  | finish => exact h.finishNode
  | mark name => exact h
  | startAt name kind =>
    rw [Builder.step]
    split
    · exact h.startAt _ kind
    · exact h.start kind

theorem run (events : List BuildEvent) : (Builder.run events).1.Sound := by
  have hrun : ∀ (events : List BuildEvent) (s : Builder × Marks), s.1.Sound →
      (events.foldl Builder.step s).1.Sound := by
    intro events
    induction events with
    | nil => exact fun s hs => hs
    | cons e events ih => exact fun s hs => ih _ (hs.step s.2 e)
  exact hrun events (.empty, []) empty

/-- With some node closed outside every other, that node is the root of a sound tree. -/
theorem tree (h : b.Sound) {root : NodeId} (hlast : b.last = some root) :
    (Tree.mk b.slots root).Sound ∧ (Tree.mk b.slots root).Bare := by
  have hroot : root ∈ b.last.toList ++ waiting b.frames := by
    rw [hlast]
    exact List.mem_append_left _ List.mem_cons_self
  have hlinked : (Tree.mk b.slots root).Linked :=
    h.linked.congr (fun _ => rfl) (fun _ => rfl) fun _ => rfl
  refine ⟨⟨hlinked, h.loose.lt_size root hroot, h.loose.parent?_eq root hroot,
    h.attached root (h.loose.lt_size root hroot), fun {c p} hu => ?_⟩, h.bare⟩
  exact (h.attached c hu.lt_size).trans (h.attached p (hlinked.parent_lt_size hu)).symm

end Sound

theorem length_frames_finishNode (b : Builder) :
    b.finishNode.frames.length = b.frames.length - 1 := by
  rw [finishNode]
  split
  next h => rw [h]; rfl
  next f rest h =>
    rw [h]
    cases rest <;> rfl

theorem frames_finishAll (b : Builder) : (b.finishAll b.frames.length).frames = [] := by
  have hall : ∀ (n : Nat) (b : Builder), b.frames.length = n → (b.finishAll n).frames = [] := by
    intro n
    induction n with
    | zero => exact fun b => List.eq_nil_of_length_eq_zero
    | succ n ih =>
      intro b hb
      exact ih b.finishNode (by rw [length_frames_finishNode, hb, Nat.add_sub_cancel])
  exact hall _ b rfl

/-- The finished tree consists of the slots of a sound builder and the node it closed last. -/
theorem Sound.exists_finish (h : b.Sound) :
    ∃ d : Builder, d.Sound ∧ ∃ root, d.last = some root ∧ b.finish = ⟨d.slots, root⟩ := by
  have hdone := h.finishAll b.frames.length
  rw [finish]
  split
  next root hroot => exact ⟨_, hdone, root, hroot, rfl⟩
  next hnone =>
    refine ⟨_, (hdone.start .sourceFile).finishNode, (b.finishAll b.frames.length).slots.size, ?_⟩
    simp [Builder.start, Builder.finishNode, frames_finishAll]

end Builder

theorem Tree.sound_ofEvents (events : List BuildEvent) : (ofEvents events).Sound := by
  obtain ⟨d, hd, root, hroot, he⟩ := (Builder.Sound.run events).exists_finish
  rw [ofEvents, he]
  exact (hd.tree hroot).1

theorem Tree.bare_ofEvents (events : List BuildEvent) : (ofEvents events).Bare := by
  obtain ⟨d, hd, root, hroot, he⟩ := (Builder.Sound.run events).exists_finish
  rw [ofEvents, he]
  exact (hd.tree hroot).2

end PhpLint
