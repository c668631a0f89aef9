import PhpLint.Proofs.Tree.Subtree

/-! One more slot, and whole copied subtrees. A new node may take as children only nodes that stand
under nobody, each once; then the arena stays linked and the older slots keep all they had. -/

namespace PhpLint

namespace Tree

/-- The tree with one more slot. -/
def grow (t : Tree) (kind : Kind) (text : Option String) (children : List NodeId)
    (attached : Bool) : Tree :=
  { t with slots := Slots.alloc t.slots kind text children attached }

/-- Nodes that stand under nobody, none listed twice. -/
structure Loose (t : Tree) (ids : List NodeId) : Prop where
  nodup : ids.Nodup
  lt_size : ∀ c ∈ ids, c < t.size
  parent?_eq : ∀ c ∈ ids, t.parent? c = none

variable {t u v : Tree} {kind : Kind} {text : Option String} {children ids : List NodeId}
  {attached : Bool} {c n p : NodeId}

theorem Loose.not_mem (h : t.Loose ids) (hn : t.size ≤ n) : n ∉ ids := fun hmem =>
  Nat.not_lt.2 hn (h.lt_size n hmem)

@[simp] theorem size_grow : (t.grow kind text children attached).size = t.size + 1 :=
  Slots.size_alloc ..

theorem slot_grow (h : t.Loose children) (n : NodeId) :
    (t.grow kind text children attached).slot n =
      if n = t.size then ⟨kind, text, none, children, 0, 0, attached⟩
      else if n ∈ children then
        { t.slot n with parent := some t.size, index := children.idxOf n }
      else t.slot n :=
  Slots.get_alloc h.nodup h.lt_size kind text attached n

theorem children_grow (h : t.Loose children) (n : NodeId) :
    (t.grow kind text children attached).children n =
      if n = t.size then children else t.children n := by
  rw [Tree.children, slot_grow h]
  split
  · rfl
  · split <;> rfl

theorem tokenText?_grow (h : t.Loose children) (n : NodeId) :
    (t.grow kind text children attached).tokenText? n =
      if n = t.size then text else t.tokenText? n := by
  rw [tokenText?, slot_grow h]
  split
  · rfl
  · split <;> rfl

theorem isAttached_grow (h : t.Loose children) (n : NodeId) :
    (t.grow kind text children attached).isAttached n =
      if n = t.size then attached else t.isAttached n := by
  rw [isAttached, slot_grow h]
  split
  · rfl
  · split <;> rfl

theorem parent?_grow (h : t.Loose children) (n : NodeId) :
    (t.grow kind text children attached).parent? n =
      if n ∈ children then some t.size else t.parent? n := by
  rw [parent?, slot_grow h]
  split
  next hn =>
    rw [if_neg (h.not_mem hn.ge), parent?_of_size_le hn.ge]
  next => split <;> rfl

theorem index_grow (h : t.Loose children) (hc : c ∈ children) :
    (t.grow kind text children attached).index c = children.idxOf c := by
  have hne : c ≠ t.size := (h.lt_size c hc).ne
  rw [index, slot_grow h, if_neg hne, if_pos hc]

theorem index_grow_of_under (h : t.Loose children) (hu : t.Under c p) :
    (t.grow kind text children attached).index c = t.index c := by
  have hc : c ∉ children := fun hc => by
    rw [Under, h.parent?_eq c hc] at hu
    cases hu
  rw [index, slot_grow h, if_neg hu.lt_size.ne, if_neg hc, index]

theorem under_grow (h : t.Loose children) :
    (t.grow kind text children attached).Under c p ↔
      c ∈ children ∧ p = t.size ∨ t.Under c p := by
  rw [Under, parent?_grow h]
  by_cases hc : c ∈ children
  · rw [if_pos hc, Option.some.injEq, Under, h.parent?_eq c hc]
    simp [hc, eq_comm]
  · rw [if_neg hc, Under]
    simp [hc]

theorem Linked.grow (ht : t.Linked) (h : t.Loose children) :
    (t.grow kind text children attached).Linked := by
  have old : ∀ p, p ≠ t.size → Acc (t.grow kind text children attached).Under p := by
    intro p
    induction p using ht.wellFounded.induction with
    | _ p ih =>
      intro hp
      refine Acc.intro p fun c hc => ?_
      rcases (under_grow h).1 hc with ⟨-, he⟩ | hu
      · exact absurd he hp
      · exact ih c hu hu.lt_size.ne
  refine ⟨fun {p c} => ?_, fun p => ?_, fun {p c} hu => ?_, ⟨fun p => ?_⟩⟩
  · rw [children_grow h, under_grow h]
    split
    next hp =>
      have hno : ¬ t.Under c p := fun hu => (ht.parent_lt_size hu).ne hp
      rw [and_iff_left hp, or_iff_left hno]
    next hp => rw [ht.mem_children, or_iff_right fun h => hp h.2]
  · rw [children_grow h]
    split
    · exact h.nodup
    · exact ht.nodup p
  · rcases (under_grow h).1 hu with ⟨hc, rfl⟩ | hu
    · rw [index_grow h hc, children_grow h, if_pos rfl]
    · rw [index_grow_of_under h hu, children_grow h, if_neg (ht.parent_lt_size hu).ne,
        ht.index_eq hu]
  · by_cases hp : p = t.size
    · refine Acc.intro p fun c hc => old c ?_
      rcases (under_grow h).1 hc with ⟨hc, -⟩ | hu
      · exact (h.lt_size c hc).ne
      · exact hu.lt_size.ne
    · exact old p hp

end Tree

/-- Tokens of the subtree are leaves. -/
def Node.Bare (n : Node) : Prop := ∀ m ∈ n.preorder, m.isToken → m.children = []

theorem Slots.Holds.bare {slots : Array Slot} {n : Node} (h : Slots.Holds slots n)
    (hb : ∀ id, (Slots.get slots id).text.isSome → (Slots.get slots id).children = []) :
    n.Bare := by
  induction n using Node.induction with
  | mk id kind token children ih =>
    intro m hm htoken
    rw [Node.preorder_eq, List.mem_cons, List.mem_flatMap] at hm
    rcases hm with rfl | ⟨c, hc, hm⟩
    · refine List.map_eq_nil_iff.1 (h.children_eq.symm.trans (hb id ?_))
      rwa [h.text_eq]
    · exact ih c hc (h.of_mem hc) m hm htoken

theorem Node.Bare.of_mem {n c : Node} (h : n.Bare) (hc : c ∈ n.children) : c.Bare :=
  fun m hm => h m (n.preorder_eq ▸ List.mem_cons_of_mem n (List.mem_flatMap_of_mem hc hm))

namespace Tree

def graftAll (t : Tree) (ns : List Node) : Tree × List NodeId :=
  ({ t with slots := (Slots.graftAll t.slots ns).1 }, (Slots.graftAll t.slots ns).2)

theorem graft_eq (t : Tree) (id : NodeId) (kind : Kind) (token : Option String)
    (children : List Node) :
    t.graft ⟨id, kind, token, children⟩ =
      ((t.graftAll children).1.grow kind token (t.graftAll children).2 false,
        (t.graftAll children).1.size) := by
  rw [graft, Slots.graft]
  rfl

theorem graftAll_cons (t : Tree) (n : Node) (ns : List Node) :
    t.graftAll (n :: ns) =
      (((t.graft n).1.graftAll ns).1, (t.graft n).2 :: ((t.graft n).1.graftAll ns).2) := by
  rw [graftAll, Slots.graftAll]
  rfl

/-- `u` is `t` with detached copies of `ns` behind its slots, `ids` names the copies. -/
structure Grafted (t u : Tree) (ns : List Node) (ids : List NodeId) : Prop where
  linked : u.Linked
  root_eq : u.root = t.root
  length_eq : ids.length = ns.length
  size_le : t.size ≤ u.size
  slot_eq : ∀ n < t.size, u.slot n = t.slot n
  loose : u.Loose ids
  new : ∀ c ∈ ids, t.size ≤ c
  detached : ∀ n, t.size ≤ n → u.isAttached n = false
  bare : (∀ n ∈ ns, n.Bare) → ∀ id, t.size ≤ id → u.isToken id → u.children id = []

variable {t u v : Tree} {n : Node} {ns : List Node} {id x : NodeId} {ids : List NodeId}

namespace Grafted

theorem nil (h : t.Linked) : Grafted t t [] [] where
  linked := h
  root_eq := rfl
  length_eq := rfl
  size_le := Nat.le_refl _
  slot_eq := fun _ _ => rfl
  loose := ⟨List.nodup_nil, by simp, by simp⟩
  new := by simp
  detached := fun _ => isAttached_eq_false_of_size_le
  bare := fun _ _ hid _ => children_of_size_le hid

theorem cons (h : Grafted t u [n] [id]) (h' : Grafted u v ns ids) :
    Grafted t v (n :: ns) (id :: ids) where
  linked := h'.linked
  root_eq := h'.root_eq.trans h.root_eq
  length_eq := congrArg (· + 1) h'.length_eq
  size_le := h.size_le.trans h'.size_le
  slot_eq := fun x hx => (h'.slot_eq x (hx.trans_le h.size_le)).trans (h.slot_eq x hx)
  loose := by
    have hid : id < u.size := h.loose.lt_size id List.mem_cons_self
    refine ⟨List.nodup_cons.2 ⟨fun hmem => ?_, h'.loose.nodup⟩, ?_, ?_⟩
    · exact Nat.not_le.2 hid (h'.new id hmem)
    · exact List.forall_mem_cons.2 ⟨hid.trans_le h'.size_le, h'.loose.lt_size⟩
    · refine List.forall_mem_cons.2 ⟨?_, h'.loose.parent?_eq⟩
      rw [parent?, h'.slot_eq id hid]
      exact h.loose.parent?_eq id List.mem_cons_self
  new := List.forall_mem_cons.2
    ⟨h.new id List.mem_cons_self, fun c hc => h.size_le.trans (h'.new c hc)⟩
  detached := fun x hx => by
    by_cases hux : u.size ≤ x
    · exact h'.detached x hux
    · rw [isAttached, h'.slot_eq x (Nat.lt_of_not_le hux)]
      exact h.detached x hx
  bare := fun hb x hx => by
    rw [List.forall_mem_cons] at hb
    by_cases hux : u.size ≤ x
    · exact h'.bare hb.2 x hux
    · rw [isToken, tokenText?, children, h'.slot_eq x (Nat.lt_of_not_le hux)]
      exact h.bare (by simpa using hb.1) x hx

theorem node (h : Grafted t u ns ids) (hn : n.children = ns) :
    Grafted t (u.grow n.kind n.token ids false) [n] [u.size] where
  linked := h.linked.grow h.loose
  root_eq := h.root_eq
  length_eq := rfl
  size_le := by
    rw [size_grow]
    exact h.size_le.trans (Nat.le_succ _)
  slot_eq := fun x hx => by
    have hids : x ∉ ids := fun hmem => Nat.not_le.2 hx (h.new x hmem)
    rw [slot_grow h.loose, if_neg (hx.trans_le h.size_le).ne, if_neg hids, h.slot_eq x hx]
  loose := by
    refine ⟨List.nodup_singleton _, ?_, ?_⟩
    · simp
    · simp [parent?_grow h.loose, h.loose.not_mem, parent?_of_size_le]
  new := by simpa using h.size_le
  detached := fun x hx => by
    rw [isAttached_grow h.loose, h.detached x hx, ite_self]
  bare := fun hb x hx htoken => by
    have hnb : n.Bare := hb n List.mem_cons_self
    rw [isToken, tokenText?_grow h.loose] at htoken
    rw [children_grow h.loose]
    split
    next hxs =>
      rw [if_pos hxs] at htoken
      have hnil := hnb n (n.preorder_eq ▸ List.mem_cons_self) htoken
      exact List.eq_nil_of_length_eq_zero (by rw [h.length_eq, ← hn, hnil, List.length_nil])
    next hxs =>
      rw [if_neg hxs] at htoken
      exact h.bare (fun c hc => hnb.of_mem (hn ▸ hc)) x hx htoken

end Grafted

theorem Linked.graft (h : t.Linked) (n : Node) : Grafted t (t.graft n).1 [n] [(t.graft n).2] := by
  induction n using Node.induction generalizing t with
  | mk id kind token children ih =>
    have hall : ∀ (ns : List Node) (t : Tree), t.Linked → (∀ n ∈ ns, n ∈ children) →
        Grafted t (t.graftAll ns).1 ns (t.graftAll ns).2 := by
      intro ns
      induction ns with
      | nil => exact fun t ht _ => .nil ht
      | cons n ns ihs =>
        intro t ht hmem
        rw [List.forall_mem_cons] at hmem
        have hn := ih n hmem.1 ht
        rw [graftAll_cons]
        exact hn.cons (ihs _ hn.linked hmem.2)
    rw [graft_eq]
    exact (hall children t h fun _ hc => hc).node (n := ⟨id, kind, token, children⟩) rfl

theorem Sound.graft (h : t.Sound) (n : Node) : (t.graft n).1.Sound := by
  have g := h.linked.graft n
  have hroot := g.slot_eq t.root h.root_lt_size
  refine ⟨g.linked, ?_, ?_, ?_, fun {c p} hu => ?_⟩
  · exact h.root_lt_size.trans_le g.size_le
  · rw [parent?, g.root_eq, hroot]
    exact h.parent?_root
  · rw [isAttached, g.root_eq, hroot]
    exact h.isAttached_root
  · by_cases hc : c < t.size
    · have hold : t.Under c p := by rwa [Under, parent?, g.slot_eq c hc] at hu
      rw [isAttached, isAttached, g.slot_eq c hc, g.slot_eq p (h.linked.parent_lt_size hold)]
      exact h.isAttached_eq hold
    · -- a new node stands under a new one, for the old child lists are as they were
      have hp : t.size ≤ p := by
        by_contra hp
        have hmem := g.linked.mem_children.2 hu
        rw [children, g.slot_eq p (Nat.lt_of_not_le hp)] at hmem
        exact hc (h.linked.lt_size_of_mem hmem)
      rw [g.detached c (Nat.le_of_not_lt hc), g.detached p hp]

theorem Bare.graft (h : t.Bare) (ht : t.Linked) {n : Node} (hn : n.Bare) : (t.graft n).1.Bare := by
  have g := ht.graft n
  intro id htoken
  by_cases hid : id < t.size
  · rw [isToken, tokenText?, g.slot_eq id hid] at htoken
    rw [children, g.slot_eq id hid]
    exact h id htoken
  · exact g.bare (by simpa using hn) id (Nat.le_of_not_lt hid) htoken

theorem Bare.node (h : t.Bare) (ht : t.Linked) (hid : id < t.size) : (t.node id).Bare :=
  (ht.holds_node hid).bare h

end Tree

end PhpLint
