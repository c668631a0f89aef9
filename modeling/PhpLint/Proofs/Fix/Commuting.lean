import PhpLint.Proofs.Fix.Applicable
import PhpLint.Proofs.Fix.Detaching
import PhpLint.Proofs.Tree.Spliced

/-! Edits that do not meet. Where two edits take out nodes of which neither stands within the other,
each finds its node as it was before the other one ran, so they go through in either order. The
arenas that come of the two orders differ, since what is put in is numbered as it comes; the trees in
them look the same. -/

namespace PhpLint

namespace Tree

variable {t u v : Tree} {c n p r x y : NodeId} {ids ids' : List NodeId} {ns ms : List Node}
  {into into' : NodeId → List NodeId}

theorem Linked.shape_eq (h : t.Linked) (hn : n < t.size) :
    t.shape n = ⟨0, t.kind n, t.tokenText? n, (t.children n).map t.shape⟩ := by
  obtain ⟨m, hm, rfl⟩ := h.exists_holds hn
  have hchildren : (t.children m.id).map t.shape = m.children.map Node.nameless := by
    rw [children_of_holds hm, List.map_map]
    exact List.map_congr_left fun c hc => congrArg Node.nameless (h.node_eq (hm.of_mem hc))
  have htoken : t.tokenText? m.id = m.token := hm.text_eq
  rw [shape, h.node_eq hm, hchildren, kind_of_holds hm, htoken]
  cases m
  rw [Node.nameless_mk]

namespace Recast

/-- Two changes of one tree that have the same to show in place of every node below an old one. -/
theorem shape_congr (h : Recast t u into) (h' : Recast t v into') (ht : t.Linked) (hu : u.Linked)
    (hv : v.Linked) (hkind : ∀ n < t.size, u.kind n = v.kind n) (hn : n < t.size)
    (hsame : ∀ c, t.Within c n → c ≠ n →
      into c = [c] ∧ into' c = [c] ∨ (into c).map u.shape = (into' c).map v.shape) :
    u.shape n = v.shape n := by
  induction n using ht.wellFounded.induction with
  | _ n ih =>
    have hchildren : (t.children n).flatMap (fun c => (into c).map u.shape) =
        (t.children n).flatMap fun c => (into' c).map v.shape := by
      refine List.flatMap_congr fun c hc => ?_
      have hunder := ht.mem_children.1 hc
      have hne : c ≠ n := fun he => ht.not_within_of_under hunder (he ▸ .refl t n)
      rcases hsame c (.of_under hunder) hne with ⟨hinto, hinto'⟩ | hshapes
      · have hbelow := ih c hunder hunder.lt_size fun d hd _ =>
          hsame d (hd.trans (.of_under hunder)) fun he => ht.not_within_of_under hunder (he ▸ hd)
        rw [hinto, hinto', List.map_singleton, List.map_singleton, hbelow]
      · exact hshapes
    rw [hu.shape_eq (hn.trans_le h.size_le), hv.shape_eq (hn.trans_le h'.size_le), hkind n hn,
      h.tokenText?_eq n hn, h'.tokenText?_eq n hn, h.children_eq n hn, h'.children_eq n hn,
      List.map_flatMap, List.map_flatMap, hchildren]

theorem shape_of_untouched (h : Recast t u into) (ht : t.Linked) (hu : u.Linked)
    (hkind : ∀ n < t.size, u.kind n = t.kind n) (hn : n < t.size)
    (hsame : ∀ c, t.Within c n → c ≠ n → into c = [c]) : u.shape n = t.shape n :=
  h.shape_congr (.refl t) ht hu ht hkind hn fun c hc hne => .inl ⟨hsame c hc hne, rfl⟩

end Recast

/-- `u` is `t` with `ids` in place of `x`, which are new and look like `ns`. -/
structure Swapped (t u : Tree) (x : NodeId) (ids : List NodeId) (ns : List Node) : Prop where
  sound : u.Sound
  recast : Recast t u fun c => if c = x then ids else [c]
  sheds : Sheds t u (some x)
  kind_eq : ∀ n < t.size, u.kind n = t.kind n
  new : ∀ r ∈ ids, t.size ≤ r ∧ r < u.size
  shapes_eq : ids.map u.shape = ns.map Node.nameless
  bare : ∀ n, t.size ≤ n → u.isToken n = true → u.children n = []

/-- `u` is `t` with something like `ns` in place of `x` and something like `ms` in place of `y`. -/
structure SwappedBoth (t u : Tree) (x y : NodeId) (ns ms : List Node) : Prop where
  sound : u.Sound
  exists_recast : ∃ ids ids', ids.map u.shape = ns.map Node.nameless ∧
    ids'.map u.shape = ms.map Node.nameless ∧
    Recast t u fun c => if c = x then ids else if c = y then ids' else [c]
  kind_eq : ∀ n < t.size, u.kind n = t.kind n

namespace Swapped

theorem within (h : Swapped t u x ids ns) (ht : t.Linked) (hc : c < t.size) (hw : u.Within c p) :
    t.Within c p :=
  ht.within_of_forall_under (fun hc hu => ((h.sheds.under_iff hc).1 hu).1) hc hw

/-- What is put in has no token with something below it. -/
theorem defect?_eq_none (h : Swapped t u x ids ns) (ht : t.Sound) (hdefect : t.defect? = none) :
    u.defect? = none := by
  rw [h.sound.defect?_eq_none_iff]
  rw [ht.defect?_eq_none_iff] at hdefect
  intro n hn
  rw [isOvergrown, Bool.and_eq_false_iff, Bool.not_eq_false', List.isEmpty_iff,
    ← Bool.not_eq_true, ← imp_iff_not_or]
  intro htoken
  by_cases hold : n < t.size
  · have hgrown := hdefect n (h.within ht.linked hold (h.recast.root_eq ▸ hn))
    rw [isToken, h.recast.tokenText?_eq n hold] at htoken
    rw [isOvergrown, isToken, htoken, Bool.true_and, Bool.not_eq_false', List.isEmpty_iff] at hgrown
    rw [h.recast.children_eq n hold, hgrown, List.flatMap_nil]
  · exact h.bare n (Nat.le_of_not_lt hold) htoken

/-- A second change elsewhere leaves what the first one has put in. -/
theorem both (h : Swapped t u x ids ns) (h' : Swapped u v y ids' ms) (ht : t.Linked)
    (hy : y < t.size) : SwappedBoth t v x y ns ms where
  sound := h'.sound
  exists_recast := by
    have hnew : ∀ r ∈ ids, r ≠ y := fun r hr he => Nat.not_lt.2 (h.new r hr).1 (he ▸ hy)
    have hids : ids.map v.shape = ids.map u.shape := List.map_congr_left fun r hr =>
      h'.recast.shape_of_untouched h.sound.linked h'.sound.linked h'.kind_eq (h.new r hr).2
        fun c hc _ => if_neg fun he : c = y => by
          -- what an old node stands within is old
          have hold := ht.lt_size_of_within (h.within ht hy (he ▸ hc)) hy
          exact Nat.not_lt.2 (h.new r hr).1 hold
    have hinto : (fun c => (if c = x then ids else [c]).flatMap fun c =>
        if c = y then ids' else [c]) = fun c => if c = x then ids else if c = y then ids' else [c] := by
      funext c
      split
      · exact flatMap_kept fun hmem => hnew y hmem rfl
      · exact List.flatMap_singleton ..
    exact ⟨ids, ids', hids.trans h.shapes_eq, h'.shapes_eq, hinto ▸ h.recast.trans h'.recast⟩
  kind_eq := fun n hn => (h'.kind_eq n (hn.trans_le h.recast.size_le)).trans (h.kind_eq n hn)

end Swapped

theorem SwappedBoth.shape_eq (h : SwappedBoth t u x y ns ms) (h' : SwappedBoth t v y x ms ns)
    (ht : t.Sound) (hne : x ≠ y) : u.shape u.root = v.shape v.root := by
  obtain ⟨ids, ids', hids, hids', hrecast⟩ := h.exists_recast
  obtain ⟨jds', jds, hjds', hjds, hrecast'⟩ := h'.exists_recast
  rw [hrecast.root_eq, hrecast'.root_eq]
  refine hrecast.shape_congr hrecast' ht.linked h.sound.linked h'.sound.linked
    (fun n hn => (h.kind_eq n hn).trans (h'.kind_eq n hn).symm) ht.root_lt_size fun c _ _ => ?_
  by_cases hx : c = x
  · rw [hx, if_pos rfl, if_neg hne, if_pos rfl, hids, hjds]
    exact .inr rfl
  · by_cases hy : c = y
    · rw [hy, if_neg hne.symm, if_pos rfl, if_pos rfl, hids', hjds']
      exact .inr rfl
    · rw [if_neg hx, if_neg hy, if_neg hy, if_neg hx]
      exact .inl ⟨rfl, rfl⟩

/-- What is put in is a copy, and detached until it is put in. -/
theorem Sound.swapped_of_replace {m : Node} (ht : t.Sound) (hm : m.Bare)
    (hx : t.isAttached x = true) (hsheds : Sheds t u (some x))
    (hreplace : Tree.replace x (t.graft m).2 (t.graft m).1 = .ok () u) :
    Swapped t u x [(t.graft m).2] [m] := by
  have g := ht.linked.graft m
  have hg := ht.graft m
  have hr : (t.graft m).2 < (t.graft m).1.size := g.loose.lt_size _ List.mem_cons_self
  have hsize := hg.size_of_replace hr hreplace
  have hu := hg.of_replace hr hreplace
  have hrecast := hg.recast_replace hr hreplace
  have hkind : ∀ n < (t.graft m).1.size, u.kind n = (t.graft m).1.kind n := fun n hn => by
    have hkept := hg.kept_replace hr x
    rw [left, hreplace] at hkept
    exact hkept.kind_eq n hn
  have hapart : ¬ (t.graft m).1.Within x (t.graft m).2 := fun hw => by
    have hflag := hg.isAttached_of_within hw
    rw [g.detached _ (g.new _ List.mem_cons_self), Tree.isAttached,
      g.slot_eq x (lt_size_of_isAttached hx), ← Tree.isAttached, hx] at hflag
    cases hflag
  have hshape : u.shape (t.graft m).2 = m.nameless := by
    rw [hrecast.shape_of_untouched hg.linked hu.linked hkind hr fun c hc _ =>
      if_neg fun he : c = x => hapart (he ▸ hc), ht.linked.shape_graft]
  exact {
    sound := hu
    recast := by simpa using (ht.linked.recast_graft m).trans hrecast
    sheds := hsheds
    kind_eq := fun n hn => by
      rw [hkind n (hn.trans_le g.size_le), kind, g.slot_eq n hn, kind]
    new := List.forall_mem_singleton.2 ⟨g.new _ List.mem_cons_self, hsize ▸ hr⟩
    shapes_eq := congrArg ([·]) hshape
    bare := fun n hn htoken => by
      by_cases hlt : n < (t.graft m).1.size
      · rw [isToken, hrecast.tokenText?_eq n hlt, ← isToken] at htoken
        rw [hrecast.children_eq n hlt, g.bare (by simpa using hm) n hn htoken, List.flatMap_nil]
      · exact children_of_size_le (hsize ▸ Nat.le_of_not_lt hlt) }

end Tree

/-- What an edit puts in, if its text can be read. -/
def Edit.pieces? (grammar : Grammar) : Edit → Option (List Node)
  | .insertSibling _ _ kind text | .replace _ kind text =>
    (Fragment.parse grammar text kind).toOption.map fun fragment =>
      [fragment.tree.node fragment.node]
  | .delete _ => some []

/-- An edit that takes out `x` and puts in `ns`: `x` is attached and stands under another node. -/
structure Edit.Fits (grammar : Grammar) (t : Tree) (e : Edit) (x : NodeId) (ns : List Node) :
    Prop where
  removed?_eq : e.removed? = some x
  pieces?_eq : e.pieces? grammar = some ns
  isAttached : t.isAttached x = true
  isSome_parent? : (t.parent? x).isSome = true

theorem EditPlan.apply_of_edits {grammar : Grammar} {t u : Tree} {edits : List Edit} (name : String)
    (h : edits.foldlM (Edit.apply grammar) t = .ok u) (hdefect : u.defect? = none) :
    (⟨name, edits⟩ : EditPlan).apply grammar t = .ok (u, ⟨name, edits.length⟩) := by
  rw [apply, h]
  dsimp only
  rw [hdefect]

namespace Edit

open PhpLint.Tree

variable {admits : Tree → NodeId → Prop} {grammar : Grammar} {t u w : Tree} {e f : Edit}
  {x y : NodeId} {ids : List NodeId} {ns ms : List Node}

namespace Fits

theorem exists_swapped (h : e.Fits grammar t x ns) (ht : t.Sound) :
    ∃ u ids, e.apply grammar t = .ok u ∧ Swapped t u x ids ns := by
  obtain ⟨hx, hns, hattached, hparent⟩ := h
  obtain ⟨p, hunder⟩ := Option.isSome_iff_exists.1 hparent
  cases e with
  | insertSibling => cases hx
  | delete target =>
    obtain rfl := Option.some.inj hx
    obtain rfl := Option.some.inj hns
    obtain ⟨u, hu, hremove⟩ := exists_delete grammar ht hunder hattached
    obtain ⟨_, -, htouched, -⟩ := ht.touched_remove hremove
    exact ⟨u, [], hu, {
      sound := ht.of_remove hremove
      recast := ht.recast_remove hremove
      sheds := sheds_of_apply ht hu
      kind_eq := fun n _ => htouched.kind_eq n
      new := nofun
      shapes_eq := rfl
      bare := fun n hn _ => children_of_size_le (htouched.size_eq ▸ hn) }⟩
  | replace target kind text =>
    obtain rfl := Option.some.inj hx
    rw [pieces?] at hns
    cases hparse : Fragment.parse grammar text kind with
    | error e =>
      rw [hparse] at hns
      cases hns
    | ok fragment =>
      rw [hparse] at hns
      obtain rfl := Option.some.inj hns
      obtain ⟨u, hu, hreplace⟩ := exists_replace ht hunder hattached hparse
      exact ⟨u, _, hu, ht.swapped_of_replace (Fragment.bare_node hparse) hattached
        (sheds_of_apply ht hu) hreplace⟩

/-- An edit still fits where another one was done that took out no node around its own. -/
theorem of_swapped (h : e.Fits grammar t x ns) (hs : Swapped t u y ids ms) (hxy : ¬ t.Within x y) :
    e.Fits grammar u x ns := by
  obtain ⟨p, hunder⟩ := Option.isSome_iff_exists.1 h.isSome_parent?
  have hx := lt_size_of_isAttached h.isAttached
  refine ⟨h.removed?_eq, h.pieces?_eq, ?_, Option.isSome_iff_exists.2 ⟨p, ?_⟩⟩
  · exact (hs.sheds.isAttached_iff hx).2 ⟨h.isAttached, by simpa using hxy⟩
  · exact (hs.sheds.under_iff hx).2 ⟨hunder, fun he => hxy (Option.some.inj he ▸ .refl t _)⟩

end Fits

/-- `e` and then `f` lead from `t` to `u`; so do they as a plan, and as two plans, if the integrity
check finds nothing in `t`. -/
structure InOrder (grammar : Grammar) (t : Tree) (e f : Edit) (u : Tree) : Prop where
  edits : [e, f].foldlM (Edit.apply grammar) t = .ok u
  plan : t.defect? = none → ∀ name,
    (⟨name, [e, f]⟩ : EditPlan).apply grammar t = .ok (u, ⟨name, 2⟩)
  plans : t.defect? = none → ∀ name, ∃ w,
    (⟨name, [e]⟩ : EditPlan).apply grammar t = .ok (w, ⟨name, 1⟩) ∧
      (⟨name, [f]⟩ : EditPlan).apply grammar w = .ok (u, ⟨name, 1⟩)

theorem Fits.exists_inOrder (he : e.Fits grammar t x ns) (hf : f.Fits grammar t y ms) (ht : t.Sound)
    (hyx : ¬ t.Within y x) : ∃ u, InOrder grammar t e f u ∧ SwappedBoth t u x y ns ms := by
  obtain ⟨w, ids, he', hw⟩ := he.exists_swapped ht
  obtain ⟨u, ids', hf', hu⟩ := (hf.of_swapped hw hyx).exists_swapped hw.sound
  have hfirst : [e].foldlM (Edit.apply grammar) t = .ok w := by
    rw [List.foldlM_cons, he']
    rfl
  have hsecond : [f].foldlM (Edit.apply grammar) w = .ok u := by
    rw [List.foldlM_cons, hf']
    rfl
  have hboth : [e, f].foldlM (Edit.apply grammar) t = .ok u := by
    rw [List.foldlM_cons, he']
    exact hsecond
  refine ⟨u, ⟨hboth, fun hdefect name => ?_, fun hdefect name => ?_⟩,
    hw.both hu ht.linked (lt_size_of_isAttached hf.isAttached)⟩
  · exact EditPlan.apply_of_edits name hboth
      (hu.defect?_eq_none hw.sound (hw.defect?_eq_none ht hdefect))
  · have hstaged := hw.defect?_eq_none ht hdefect
    exact ⟨w, EditPlan.apply_of_edits name hfirst hstaged,
      EditPlan.apply_of_edits name hsecond (hu.defect?_eq_none hw.sound hstaged)⟩

/-- Edits that take out attached nodes of which neither stands within the other can be done in either
order, and the trees that come of it look the same. -/
theorem commute_of_apart (ht : Run admits t) (he : e.Fits grammar t x ns)
    (hf : f.Fits grammar t y ms) (hxy : ¬ t.Within x y) (hyx : ¬ t.Within y x) :
    ∃ u v, InOrder grammar t e f u ∧ InOrder grammar t f e v ∧
      u.shape u.root = v.shape v.root ∧ u.text = v.text := by
  obtain ⟨u, hu, hboth⟩ := he.exists_inOrder hf ht.sound hyx
  obtain ⟨v, hv, hboth'⟩ := hf.exists_inOrder he ht.sound hxy
  have hshape := hboth.shape_eq hboth' ht.sound fun he => hxy (he ▸ .refl t x)
  refine ⟨u, v, hu, hv, hshape, ?_⟩
  rw [text, ← text_shape, hshape, text_shape, text]

/-- The first word is replaced, and the block behind it goes: the one shifts no place, the other one
does. -/
theorem commute_of_word_and_block : ∃ u v,
    InOrder (fun _ => none) threeWords (.replace 0 .token ";") (.delete 2) u ∧
      InOrder (fun _ => none) threeWords (.delete 2) (.replace 0 .token ";") v ∧
      u.shape u.root = v.shape v.root ∧ u.text = v.text ∧ u.text = ";c" := by
  have hrun : Run (fun _ _ => True) threeWords := .built _
  have hl := hrun.sound.linked
  obtain ⟨ns, hns⟩ : ∃ ns, (Edit.replace 0 .token ";").pieces? (fun _ => none) = some ns :=
    Option.isSome_iff_exists.1 (by decide +kernel)
  have hapart : ∀ c top : NodeId, top < threeWords.size → c ∉ threeWords.preorder top →
      ¬ threeWords.Within c top := fun c top htop hc hw => hc ((hl.mem_preorder htop).2 hw)
  obtain ⟨u, v, hu, hv, hshape, htext⟩ := commute_of_apart hrun
    (e := .replace 0 .token ";") (f := .delete 2) ⟨rfl, hns, by decide, by decide⟩
    ⟨rfl, rfl, by decide, by decide⟩ (hapart 0 2 (by decide) (by decide))
    (hapart 2 0 (by decide) (by decide))
  have hdone : ([Edit.replace 0 .token ";", .delete 2].foldlM (Edit.apply fun _ => none)
      threeWords).toOption.any (·.text == ";c") = true := by decide +kernel
  rw [hu.edits] at hdone
  exact ⟨u, v, hu, hv, hshape, htext, eq_of_beq hdone⟩

/-- A closed file, and a block after it that is the root; each has a word in it. -/
def fileBesideBlock : Tree :=
  ofEvents [.start .sourceFile, .token .ident "a", .finish, .start .block, .token .ident "b", .finish]

/-- Three words, with the first block put in under the first word. -/
def wordAroundBlock : Tree := left (Tree.insert 0 0 2) (left (Tree.remove 2) threeWords)

/-- A file that the builder left outside the tree counts as attached and cannot be deleted. Where a
block was put in under a word, no plan goes through that leaves it there. -/
theorem exists_run_edits_fail :
    (Run (fun _ _ => True) fileBesideBlock ∧
      (∀ x ∈ [1, 2], fileBesideBlock.isAttached x = true ∧ x ≠ fileBesideBlock.root) ∧
      ¬ fileBesideBlock.Within 1 2 ∧ ¬ fileBesideBlock.Within 2 1 ∧
      ∀ grammar, [.delete 1, .delete 2].foldlM (Edit.apply grammar) fileBesideBlock =
          .error (.structural (.notAttached 1)) ∧
        [.delete 2, .delete 1].foldlM (Edit.apply grammar) fileBesideBlock =
          .error (.structural (.notAttached 1))) ∧
    Run (fun _ _ => True) wordAroundBlock ∧
      (∀ x ∈ [1, 3], wordAroundBlock.isAttached x = true ∧ x ≠ wordAroundBlock.root) ∧
      ¬ wordAroundBlock.Within 1 3 ∧ ¬ wordAroundBlock.Within 3 1 ∧
      ∀ grammar, (⟨"custom", [.delete 1, .delete 3]⟩ : EditPlan).apply grammar wordAroundBlock =
          .error (.malformed "token NodeId(0) has children") ∧
        (⟨"custom", [.delete 3, .delete 1]⟩ : EditPlan).apply grammar wordAroundBlock =
          .error (.malformed "token NodeId(0) has children") := by
  have hfile : Run (fun _ _ => True) fileBesideBlock := .built _
  have hword : Run (fun _ _ => True) wordAroundBlock :=
    .insert 0 (.remove 2 (.built _)) trivial (by decide)
  refine ⟨⟨hfile, by decide, ?_, ?_, fun _ => ⟨rfl, rfl⟩⟩, hword, by decide, ?_, ?_,
    fun _ => ⟨rfl, rfl⟩⟩
  · rw [← hfile.sound.linked.mem_preorder (by decide)]
    decide
  · rw [← hfile.sound.linked.mem_preorder (by decide)]
    decide
  · rw [← hword.sound.linked.mem_preorder (by decide)]
    decide
  · rw [← hword.sound.linked.mem_preorder (by decide)]
    decide

end Edit

end PhpLint
