import PhpLint.Concrete.Green
import PhpLint.Proofs.Tree.Building

/-! The tree built from a plain value holds that value: read without names, its root node is what it
was built from, token for token. -/

namespace PhpLint

namespace Green

mutual

/-- The texts of the tokens, in order. -/
def tokens : Green → List String
  | token _ text => [text]
  | node _ children => tokensAll children

def tokensAll : List Green → List String
  | [] => []
  | g :: gs => tokens g ++ tokensAll gs

end

theorem tokensAll_append (a b : List Green) : tokensAll (a ++ b) = tokensAll a ++ tokensAll b := by
  induction a with
  | nil => rfl
  | cons g a ih => rw [List.cons_append, tokensAll, ih, tokensAll, List.append_assoc]

end Green

namespace Node

mutual

/-- The subtree without its names. -/
def green : Node → Green
  | ⟨_, kind, some text, _⟩ => .token kind text
  | ⟨_, kind, none, children⟩ => .node kind (greenAll children)

def greenAll : List Node → List Green
  | [] => []
  | n :: ns => green n :: greenAll ns

end

theorem filterMap_token_preorder_eq_tokens {n : Node} (h : n.Bare) :
    n.preorder.filterMap token = n.green.tokens := by
  induction n using Node.induction with
  | mk id kind text children ih =>
    have hall : ∀ ns : List Node, (∀ n ∈ ns, n ∈ children) →
        (ns.flatMap fun c => c.preorder.filterMap Node.token) = Green.tokensAll (greenAll ns) := by
      intro ns
      induction ns with
      | nil => exact fun _ => rfl
      | cons n ns ihs =>
        intro hns
        rw [List.forall_mem_cons] at hns
        rw [List.flatMap_cons, ih n hns.1 (h.of_mem hns.1), ihs hns.2, greenAll, Green.tokensAll]
    rw [filterMap_token_preorder]
    cases text with
    | none => exact hall children fun _ hc => hc
    | some text =>
      have hnil : children = [] := h _ (preorder_eq _ ▸ List.mem_cons_self) rfl
      rw [hnil]
      rfl

theorem text_eq_join (n : Node) : n.text = String.join (n.preorder.filterMap token) := by
  induction n using Node.induction with
  | mk id kind text children ih =>
    have hall : ∀ ns : List Node, (∀ n ∈ ns, n ∈ children) →
        textAll ns = String.join (ns.flatMap fun c => c.preorder.filterMap Node.token) := by
      intro ns
      induction ns with
      | nil => exact fun _ => rfl
      | cons n ns ihs =>
        intro hns
        rw [List.forall_mem_cons] at hns
        rw [textAll, ih n hns.1, ihs hns.2, List.flatMap_cons, String.join_append]
    rw [filterMap_token_preorder, Node.text, hall children fun _ hc => hc, String.join_append]
    cases text <;> simp

end Node

namespace Builder

/-- `after` is `before` with the nodes `ns` handed to the innermost open node, which leaves `f`
behind it as it was. -/
structure Received (f : Frame) (rest : List Frame) (before after : Builder) (ns : List Node) :
    Prop where
  frames_before : before.frames = f :: rest
  frames_after : after.frames = { f with children := f.children ++ ns.map Node.id } :: rest
  last : after.last = before.last
  kept : ∀ n, Slots.Holds before.slots n → Slots.Holds after.slots n
  holds : ∀ n ∈ ns, Slots.Holds after.slots n

variable {a b c : Builder} {f : Frame} {rest : List Frame} {n : Node} {ns : List Node}

namespace Received

theorem nil (h : b.frames = f :: rest) : Received f rest b b [] := by
  refine ⟨h, ?_, rfl, fun _ hn => hn, fun n hn => by cases hn⟩
  rw [h, List.map_nil, List.append_nil]

theorem cons (h : Received f rest a b [n])
    (h' : Received { f with children := f.children ++ [n.id] } rest b c ns) :
    Received f rest a c (n :: ns) := by
  refine ⟨h.frames_before, ?_, h'.last.trans h.last, fun m hm => h'.kept m (h.kept m hm), ?_⟩
  · rw [h'.frames_after, List.map_cons, List.append_assoc, List.singleton_append]
  · exact List.forall_mem_cons.2 ⟨h'.kept n (h.holds n List.mem_cons_self), h'.holds⟩

theorem token (h : b.frames = f :: rest) (kind : Kind) (text : String) :
    Received f rest b (b.token kind text) [⟨b.slots.size, kind, some text, []⟩] := by
  refine ⟨h, ?_, rfl, fun n hn => hn.alloc .., ?_⟩
  · rw [Builder.token, h]
    rfl
  · rw [List.forall_mem_singleton]
    exact Slots.Holds.alloc_new (List.forall_mem_nil _) true

/-- Opening, filling and closing a node hands over that node. -/
theorem node {kind : Kind} (h : b.frames = f :: rest)
    (hin : Received ⟨kind, []⟩ (f :: rest) (b.start kind) c ns) :
    Received f rest b c.finishNode [⟨c.slots.size, kind, none, ns⟩] := by
  have hframes := hin.frames_after
  refine ⟨h, ?_, ?_, fun n hn => ?_, ?_⟩
  · rw [finishNode, hframes]
    rfl
  · rw [finishNode, hframes]
    exact hin.last
  · rw [finishNode, hframes]
    exact (hin.kept n hn).alloc ..
  · rw [finishNode, hframes, List.forall_mem_singleton]
    exact Slots.Holds.alloc_new hin.holds true

end Received

mutual

theorem exists_received (marks : Marks) :
    ∀ (g : Green) (b : Builder) (f : Frame) (rest : List Frame), b.frames = f :: rest →
      ∃ c n, g.events.foldl step (b, marks) = (c, marks) ∧ Received f rest b c [n] ∧ n.green = g
  | .token kind text, b, f, rest, h => ⟨_, _, rfl, .token h kind text, rfl⟩
  | .node kind gs, b, f, rest, h => by
    obtain ⟨c, ns, hc, hin, hns⟩ :=
      exists_receivedAll marks gs (b.start kind) ⟨kind, []⟩ (f :: rest) (by rw [start, h])
    refine ⟨c.finishNode, ⟨c.slots.size, kind, none, ns⟩, ?_, .node h hin, ?_⟩
    · rw [Green.events, List.cons_append, List.foldl_cons, step, List.foldl_append, hc]
      rfl
    · rw [Node.green, hns]

theorem exists_receivedAll (marks : Marks) :
    ∀ (gs : List Green) (b : Builder) (f : Frame) (rest : List Frame), b.frames = f :: rest →
      ∃ c ns, (Green.eventsAll gs).foldl step (b, marks) = (c, marks) ∧ Received f rest b c ns ∧
        Node.greenAll ns = gs
  | [], b, f, rest, h => ⟨b, [], rfl, .nil h, rfl⟩
  | g :: gs, b, f, rest, h => by
    obtain ⟨c, n, hc, hn, hg⟩ := exists_received marks g b f rest h
    obtain ⟨d, ns, hd, hns, hgs⟩ := exists_receivedAll marks gs c _ rest hn.frames_after
    refine ⟨d, n :: ns, ?_, hn.cons hns, ?_⟩
    · rw [Green.eventsAll, List.foldl_append, hc, hd]
    · rw [Node.greenAll, hg, hgs]

end

end Builder

namespace Green

/-- A node and its tree are the same. -/
theorem green_rootNode (kind : Kind) (gs : List Green) :
    (node kind gs).toTree.rootNode.green = node kind gs := by
  obtain ⟨c, ns, hc, hin, hns⟩ :=
    Builder.exists_receivedAll [] gs (Builder.empty.start kind) ⟨kind, []⟩ [] rfl
  have hrun : (Builder.run (node kind gs).events).1 = c.finishNode := by
    rw [Builder.run, events, List.cons_append, List.foldl_cons, Builder.step, List.foldl_append, hc]
    rfl
  have htree : (node kind gs).toTree = ⟨c.finishNode.slots, c.slots.size⟩ := by
    rw [toTree, Tree.ofEvents, hrun, Builder.finish, Builder.finishNode, hin.frames_after]
    rfl
  have hholds : Slots.Holds c.finishNode.slots ⟨c.slots.size, kind, none, ns⟩ := by
    rw [Builder.finishNode, hin.frames_after]
    exact Slots.Holds.alloc_new hin.holds true
  have hlinked := (Tree.sound_ofEvents (node kind gs).events).linked
  rw [← toTree, htree] at hlinked
  rw [Tree.rootNode, htree]
  exact (congrArg Node.green (hlinked.node_eq hholds)).trans (by rw [Node.green, hns])

theorem sound_toTree (g : Green) : g.toTree.Sound := Tree.sound_ofEvents g.events

theorem holds_rootNode (g : Green) : Slots.Holds g.toTree.slots g.toTree.rootNode :=
  g.sound_toTree.linked.holds_node g.sound_toTree.root_lt_size

theorem rootNode_bare (g : Green) : g.toTree.rootNode.Bare :=
  (Tree.bare_ofEvents g.events).node g.sound_toTree.linked g.sound_toTree.root_lt_size

/-- The walk over the tree of a node comes by the nodes of its view. -/
theorem preorder_root (g : Green) : g.toTree.preorder g.toTree.root = g.toTree.rootNode.ids := by
  rw [← g.sound_toTree.linked.preorder_eq_ids g.holds_rootNode]
  exact congrArg _ (Tree.id_node ..).symm

/-- The walk over the tree of a node meets the tokens of that node, in order. -/
theorem filterMap_tokenText?_preorder (kind : Kind) (gs : List Green) :
    ((node kind gs).toTree.preorder (node kind gs).toTree.root).filterMap
      (node kind gs).toTree.tokenText? = tokensAll gs := by
  rw [preorder_root, Tree.filterMap_tokenText?_ids (holds_rootNode _),
    Node.filterMap_token_preorder_eq_tokens (rootNode_bare _), green_rootNode, tokens]

theorem text_toTree (kind : Kind) (gs : List Green) :
    (node kind gs).toTree.text = String.join (tokensAll gs) := by
  rw [Tree.text, Tree.textOf, ← Tree.rootNode, Node.text_eq_join,
    Node.filterMap_token_preorder_eq_tokens (rootNode_bare _), green_rootNode, tokens]

end Green

end PhpLint
