import PhpLint.Proofs.Concrete.Placing
import PhpLint.Proofs.Concrete.Sites
import PhpLint.Proofs.Fix.Splices
import PhpLint.Proofs.Parse.Shapes

/-! Where the nodes of a parse stand in its text. The tree and the outline of the concrete tree are
gone through side by side, so that of every node it is known which piece it was made of; and the
node has the text of that piece, at the offset of that piece. -/

namespace PhpLint

namespace Node

variable {n : Node} {ns : List Node}

theorem of_green_eq_node {kind : Kind} {gs : List Green} (h : n.green = .node kind gs) :
    n.token = none ∧ n.kind = kind ∧ greenAll n.children = gs := by
  obtain ⟨id, nkind, token, children⟩ := n
  cases token with
  | some text => cases h
  | none =>
    cases h
    exact ⟨rfl, rfl, rfl⟩

theorem toList_text (h : n.Bare) : n.text.toList = n.green.tokens.flatMap String.toList := by
  rw [text_eq_join, filterMap_token_preorder_eq_tokens h, String.toList_join]

theorem toList_join_texts (h : ∀ n ∈ ns, n.Bare) : (String.join (ns.map text)).toList =
    (Green.tokensAll (greenAll ns)).flatMap String.toList := by
  induction ns with
  | nil => simp [greenAll, Green.tokensAll, String.join]
  | cons n ns ih =>
    rw [List.forall_mem_cons] at h
    rw [greenAll, Green.tokensAll, List.flatMap_append, ← toList_text h.1, ← ih h.2,
      String.toList_join, String.toList_join, List.map_cons, List.flatMap_cons]

end Node

namespace Tree

/-- A child begins where its parent does, behind the text of the children before it. -/
theorem Linked.offset_of_children {t : Tree} (h : t.Linked) (hb : t.Bare) {m n : Node}
    {left right : List Node} (hm : Slots.Holds t.slots m) (hsplit : m.children = left ++ n :: right) :
    t.offset n.id = t.offset m.id + Green.span (Green.leavesAll (Node.greenAll left)) := by
  have hchildren := children_of_holds hm
  have hleft : ∀ c ∈ left, Slots.Holds t.slots c := fun c hc =>
    hm.of_mem (hsplit ▸ List.mem_append_left _ hc)
  have htexts : (left.map Node.id).map t.textOf = left.map Node.text := by
    rw [List.map_map]
    exact List.map_congr_left fun c hc => congrArg Node.text (h.node_eq (hleft c hc))
  have hbare : ∀ c ∈ left, c.Bare := fun c hc => by
    rw [← h.node_eq (hleft c hc)]
    exact hb.node h (hleft c hc).lt_size
  rw [hsplit, List.map_append, List.map_cons] at hchildren
  rw [h.offset_of_split hchildren, htexts, ← Text.byteLength_toList, Node.toList_join_texts hbare,
    Green.span_leavesAll]

/-- The node is the one that the outline is of: that of the root for the root, and else the one that
has the same number among the child nodes. -/
inductive Paired (t : Tree) (top : Outline) : NodeId → Outline → Prop
  | root : Paired t top t.root top
  | child {id d : NodeId} {o e : Outline} {k : Nat} : Paired t top id o →
    (t.childNodes id)[k]? = some d → o.children[k]? = some e → Paired t top d e

end Tree

namespace Lower

variable {s : Source} {root : Concrete} {whole : Prop} {pos : Nat} {gs : List Green} {ns : List Node}
  {os : List Outline} {t : Tree} {top o e : Outline} {id d : NodeId}

/-- The nodes among `gs`, which begin at the offset `pos`, and the outlines go together one for one,
and `R` is true of each pair, of the offset of the node and what is in it. -/
inductive Abreast (R : Nat → List Green → Outline → Prop) : Nat → List Green → List Outline → Prop
  | nil {pos : Nat} : Abreast R pos [] []
  | token {pos : Nat} {kind : Kind} {text : String} {gs : List Green} {os : List Outline} :
    Abreast R (pos + text.utf8ByteSize) gs os → Abreast R pos (.token kind text :: gs) os
  | node {pos : Nat} {o : Outline} {inner gs : List Green} {os : List Outline} : R pos inner o →
    Abreast R (pos + Green.span (Green.leavesAll inner)) gs os →
    Abreast R pos (.node o.kind inner :: gs) (o :: os)

namespace Abreast

variable {R : Nat → List Green → Outline → Prop}

/-- Each of the nodes stands behind the text of what comes before it. -/
theorem exists_split (h : Abreast R pos (Node.greenAll ns) os) :
    (ns.filter (!·.isToken)).length = os.length ∧
      ∀ (k : Nat) (d : Node) (e : Outline), (ns.filter (!·.isToken))[k]? = some d →
        os[k]? = some e → ∃ left right, ns = left ++ d :: right ∧ d.token = none ∧
          d.kind = e.kind ∧
          R (pos + Green.span (Green.leavesAll (Node.greenAll left))) (Node.greenAll d.children) e := by
  induction ns generalizing pos os with
  | nil =>
    cases h
    exact ⟨rfl, nofun⟩
  | cons n ns ih =>
    obtain ⟨id, kind, token, children⟩ := n
    cases token with
    | some text =>
      rw [Node.greenAll, Node.green] at h
      cases h with
      | token h =>
      obtain ⟨hlen, hsplit⟩ := ih h
      refine ⟨hlen, fun k d e hd he => ?_⟩
      obtain ⟨left, right, rfl, htoken, hkind, hfound⟩ := hsplit k d e hd he
      refine ⟨⟨id, kind, some text, children⟩ :: left, right, rfl, htoken, hkind, ?_⟩
      rwa [Node.greenAll, Node.green, Green.leavesAll, Green.leaves, List.singleton_append,
        Green.span_cons, ← Nat.add_assoc]
    | none =>
      rw [Node.greenAll, Node.green] at h
      cases h with
      | node hinner hrest =>
      obtain ⟨hlen, hsplit⟩ := ih hrest
      refine ⟨congrArg (· + 1) hlen, fun k d e hd he => ?_⟩
      cases k with
      | zero =>
        cases hd
        cases he
        exact ⟨[], ns, rfl, rfl, rfl, hinner⟩
      | succ k =>
        obtain ⟨left, right, rfl, htoken, hkind, hfound⟩ := hsplit k d e hd he
        refine ⟨⟨id, _, none, children⟩ :: left, right, rfl, htoken, hkind, ?_⟩
        rwa [Node.greenAll, Node.green, Green.leavesAll, Green.leaves, Green.span_append,
          ← Nat.add_assoc]

theorem length_childNodes (ht : t.Linked) (hid : id < t.size)
    (h : Abreast R pos (Node.greenAll (t.node id).children) os) :
    (t.childNodes id).length = os.length := by
  have hnodes := Tree.childNodes_of_holds (ht.holds_node hid)
  rw [Tree.id_node] at hnodes
  rw [hnodes, List.length_map]
  exact h.exists_split.1

/-- What is true of a node among its siblings is true of it in the tree. -/
theorem child (ht : t.Linked) (hb : t.Bare) (hid : id < t.size) {base : Nat}
    (h : Abreast R (base + t.offset id) (Node.greenAll (t.node id).children) os) {k : Nat}
    (hd : (t.childNodes id)[k]? = some d) (he : os[k]? = some e) :
    d < t.size ∧ (t.node d).token = none ∧ t.kind d = e.kind ∧
      R (base + t.offset d) (Node.greenAll (t.node d).children) e := by
  have hholds := ht.holds_node hid
  have hnodes := Tree.childNodes_of_holds hholds
  rw [Tree.id_node] at hnodes
  rw [hnodes, List.getElem?_map, Option.map_eq_some_iff] at hd
  obtain ⟨n, hn, rfl⟩ := hd
  obtain ⟨left, right, hsplit, htoken, hkind, hfound⟩ := h.exists_split.2 k n e hn he
  have hself : n ∈ (t.node id).children := hsplit ▸ List.mem_append_right _ List.mem_cons_self
  have hoffset := ht.offset_of_children hb hholds hsplit
  have hnode := ht.node_eq (hholds.of_mem hself)
  rw [Tree.id_node] at hoffset
  refine ⟨(hholds.of_mem hself).lt_size, hnode.symm ▸ htoken, ?_, ?_⟩
  · rw [← Tree.kind_node, hnode, hkind]
  · rw [hoffset, ← Nat.add_assoc, hnode]
    exact hfound

end Abreast

theorem Placed.abreast (h : Placed s root whole pos gs os) : Abreast (fun here inner o =>
    Placed s root whole here inner o.children ∧
      (whole → o.late = false → ∀ site x, o.site = some site → root.at? site = some x →
        Fills s x here inner)) pos gs os := by
  induction h with
  | nil => exact .nil
  | token _ ih => exact .token ih
  | node h hfills _ _ ih => exact .node ⟨h, hfills⟩ ih

/-- A node of the tree is the one of an outline, with all that stands below it. -/
structure Stands (s : Source) (root : Concrete) (whole : Prop) (t : Tree) (id : NodeId)
    (o : Outline) : Prop where
  lt_size : id < t.size
  token : (t.node id).token = none
  kind_eq : t.kind id = o.kind
  placed : Placed s root whole (s.base + t.offset id) (Node.greenAll (t.node id).children) o.children
  fills : whole → o.late = false → ∀ site x, o.site = some site → root.at? site = some x →
    Fills s x (s.base + t.offset id) (Node.greenAll (t.node id).children)

namespace Stands

theorem length_childNodes (h : Stands s root whole t id o) (ht : t.Linked) :
    (t.childNodes id).length = o.children.length := h.placed.abreast.length_childNodes ht h.lt_size

theorem child (h : Stands s root whole t id o) (ht : t.Linked) (hb : t.Bare) {k : Nat}
    (hd : (t.childNodes id)[k]? = some d) (he : o.children[k]? = some e) :
    Stands s root whole t d e :=
  have ⟨hlt, htoken, hkind, hplaced, hfills⟩ := h.placed.abreast.child ht hb h.lt_size hd he
  ⟨hlt, htoken, hkind, hplaced, hfills⟩

/-- So it is with every node that goes together with an outline. -/
theorem of_paired (ht : t.Linked) (hb : t.Bare) (htop : Stands s root whole t t.root top)
    (h : t.Paired top id o) : Stands s root whole t id o := by
  induction h with
  | root => exact htop
  | child _ hd he ih => exact ih.child ht hb hd he

end Stands

end Lower

namespace Tree

variable {t : Tree} {top o o' : Outline} {id : NodeId}

theorem Paired.among (h : t.Paired top id o) :
    (id = t.root ∧ o = top) ∨ o.Among top.children := by
  induction h with
  | root => exact .inl ⟨rfl, rfl⟩
  | child _ _ he ih =>
    have hmem := List.mem_of_getElem? he
    rcases ih with ⟨-, rfl⟩ | h
    · exact .inr (.here hmem)
    · exact .inr (h.child hmem)

theorem Paired.unique (ht : t.Sound) (h : t.Paired top id o) (h' : t.Paired top id o') : o = o' := by
  have hunder : ∀ {p d : NodeId} {k : Nat}, (t.childNodes p)[k]? = some d → t.Under d p :=
    fun hd => ht.linked.mem_children.1 (List.mem_filter.1 (List.mem_of_getElem? hd)).1
  have hroot : ∀ p, ¬ t.Under t.root p := fun p hu => ht.ne_root_of_under hu rfl
  induction h generalizing o' with
  | root =>
    cases h' with
    | root => rfl
    | child _ hd _ => exact absurd (hunder hd) (hroot _)
  | @child p d o e k h hd he ih =>
    cases h' with
    | root => exact absurd (hunder hd) (hroot _)
    | child h' hd' he' =>
      obtain rfl := (hunder hd).parent_unique (hunder hd')
      obtain rfl := ih h'
      have hlt := (List.getElem?_eq_some_iff.1 hd).1
      have hnodup : (t.childNodes p).Nodup := (ht.linked.nodup p).filter _
      obtain rfl := (List.getElem?_inj hlt hnodup).1 (hd.trans hd'.symm)
      exact Option.some.inj (he.symm.trans he')

theorem exists_paired (ht : t.Sound) (hb : t.Bare)
    (hlength : ∀ id o, t.Paired top id o → (t.childNodes id).length = o.children.length)
    (hid : t.Within id t.root) (htoken : t.isToken id = false) : ∃ o, t.Paired top id o := by
  induction hid using Relation.ReflTransGen.head_induction_on with
  | refl => exact ⟨top, .root⟩
  | @head d p hu _ ih =>
    have hmem : d ∈ t.children p := ht.linked.mem_children.2 hu
    obtain ⟨o, ho⟩ := ih (Bool.eq_false_iff.2 fun hp => by
      rw [hb p hp] at hmem
      cases hmem)
    obtain ⟨k, hk⟩ := List.getElem?_of_mem
      (show d ∈ t.childNodes p from List.mem_filter.2 ⟨hmem, by rw [htoken]; rfl⟩)
    have hlt := (List.getElem?_eq_some_iff.1 hk).1
    rw [hlength p o ho] at hlt
    exact ⟨_, .child ho hk (List.getElem?_eq_getElem hlt)⟩

end Tree

namespace Lower

variable {s : Source} {root : Concrete} {whole : Prop} {top o : Outline}

theorem placed_rootPieces (hroot : whole → root.Laid s.text)
    (hbase : whole → Text.Boundary s.text s.base) :
    Placed s root whole s.base (rootPieces s root (start s)).1 (rootOutline s root).children := by
  have hready : whole → Ready s (start s) := fun hw => ⟨aligned_start (hbase hw), Nat.le_refl _⟩
  have hun : ∀ {role : Role} {x : Concrete}, Unpassed s (start s).pos role x := fun y hy =>
    Nat.le_max_left ..
  rw [rootPieces, rootOutline]
  dsimp only
  split
  · exact (ahead_of_laid hroot rfl).placed_lowerAll _ _ hready fun _ _ _ _ _ => hun
  · exact drawn_of_laid hroot _ _ _ _ _ rfl hready fun _ _ => hun

/-- Every node of the outline of a whole tree but the first stands for a piece of the tree, if it is
not put together from several. -/
theorem among_rootOutline (h : o.Among (rootOutline s root).children) :
    (o.site = none → o.Pieced) ∧ (root.Chained → o.late = false) ∧
      ∀ q, o.site = some q → ∃ x late place, root.at? q = some x ∧
        o ∈ outline s late q place .plain x := by
  rw [rootOutline] at h
  dsimp only at h
  split at h
  · obtain ⟨i, y, place, hy, h⟩ := among_outlineAll h
    rw [Nat.zero_add, List.nil_append] at h
    refine ⟨pieced_of_site_eq_none h, fun hroot => ?_, fun q hq => ?_⟩
    · exact late_eq_false_of_chained (hroot.children y (List.mem_of_getElem? hy)) h
    · obtain ⟨r, x, late, place, rfl, hx, -, hmem⟩ := exists_piece_of_among h hq
      refine ⟨x, late, place, ?_, hmem⟩
      rw [List.singleton_append, Concrete.at?_cons, hy]
      exact hx
  · refine ⟨pieced_of_site_eq_none h, fun hroot => late_eq_false_of_chained hroot h, fun q hq => ?_⟩
    obtain ⟨r, x, late, place, rfl, hx, -, hmem⟩ := exists_piece_of_among h hq
    exact ⟨x, late, place, hx, hmem⟩

end Lower

namespace Parse

variable {grammar : Grammar} {source : String} {base : Nat} {root : Concrete} {p : Parse}

/-- The root of a parse holds what is made of the concrete tree, and the text behind that. -/
theorem exists_pieces_of_after (hg : grammar source = some root)
    (hp : after grammar source base = .ok p) :
    let s : Source := ⟨source.toList, base⟩
    let n := p.tree.node p.tree.root
    ∃ stop d, n.token = none ∧ n.kind = .sourceFile ∧ Node.greenAll n.children =
      (Lower.rootPieces s root (Lower.start s)).1 ++ (Lower.gap s stop d).1 := by
  have hlower := Lower.lowerRoot_eq ⟨source.toList, base⟩ root (Text.byteLength source.toList)
    (Lower.start ⟨source.toList, base⟩)
  rw [after_eq hg hlower] at hp
  split at hp
  next => cases hp
  next =>
    cases hp
    exact ⟨_, _, Node.of_green_eq_node (Green.green_rootNode .sourceFile _)⟩

/-- The root of a parse is that of the outline of the concrete tree. -/
theorem stands_root {whole : Prop} (hbase : whole → Text.Boundary source.toList base)
    (hg : grammar source = some root) (hroot : whole → root.Laid source.toList)
    (hp : after grammar source base = .ok p) :
    Lower.Stands ⟨source.toList, base⟩ root whole p.tree p.tree.root
      (Lower.rootOutline ⟨source.toList, base⟩ root) := by
  have hsound := (Tree.Made.parse hp).sound_and_bare.1
  obtain ⟨stop, d, htoken, hkind, hchildren⟩ := exists_pieces_of_after hg hp
  refine ⟨hsound.root_lt_size, htoken, (Tree.kind_node ..).symm.trans hkind, ?_, nofun⟩
  rw [hsound.offset_root, Nat.add_zero, hchildren]
  exact (Lower.placed_rootPieces (s := ⟨source.toList, base⟩) hroot hbase).gap stop d

end Parse

end PhpLint
