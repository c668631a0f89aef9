import PhpLint.Proofs.Fix.Splices
import PhpLint.Proofs.Parse.Fragments

/-! That what is offered can be done. Of a tree's own findings every node stands in the tree, a
replacement leaves the statement before it where it is, and taking that out leaves the rest: no edit
is in the way of another one. What is left to fail is the reading of the new text, and the last look
at the tree, which finds what was wrong with it before. -/

namespace PhpLint

namespace Tree

variable {t u grown : Tree} {c d p q x r id old replacement parent : NodeId} {row : List NodeId}

theorem Sound.exists_replace (h : t.Sound) (hu : t.Under old parent)
    (hold : t.isAttached old = true) (hnew : t.isAttached replacement = false)
    (hfree : t.parent? replacement = none) : ∃ u, replace old replacement t = .ok () u := by
  refine ⟨(t.unlinked parent (t.index old) old).linked parent (t.index old) replacement, ?_⟩
  rw [replace_eq, hnew, hu, h.remove_eq_ok hu hold]
  exact (h.insert_unlinked_eq hu hold hnew).trans (if_neg (by rw [hfree]; decide))

/-- A token with something below it that stands in the tree, neither within `x` nor within a node
of the row. -/
structure Spoilt (t : Tree) (x : NodeId) (row : List NodeId) (id : NodeId) : Prop where
  within_root : t.Within id t.root
  overgrown : t.isOvergrown id = true
  not_within : ¬ t.Within id x
  not_within_row : ∀ d ∈ row, ¬ t.Within id d

theorem Sound.not_spoilt (h : t.Sound) (hdefect : t.defect? = none) : ¬ t.Spoilt x row id :=
  fun hs => Bool.eq_false_iff.1 (h.defect?_eq_none_iff.1 hdefect id hs.within_root) hs.overgrown

namespace RowBefore

variable (b : t.RowBefore row x)

include b

theorem ne_of_mem_row (h : t.Linked) (hd : d ∈ row) : d ≠ x := fun he =>
  b.not_within_row h hd (.refl t x) (he ▸ .refl t d)

theorem under_of_mem_row (h : t.Linked) (hd : d ∈ row) : t.Under d b.parent :=
  h.mem_children.1 (b.mem_children (.inr (.inl hd)))

theorem nodup_row (h : t.Linked) : row.Nodup := by
  have hnodup := b.children_eq ▸ h.nodup b.parent
  rw [List.nodup_append, List.nodup_append, List.nodup_append] at hnodup
  exact hnodup.1.1.2.1

theorem exists_under (h : t.Linked) : ∃ p, t.Under x p ∧ t.Within p t.root := by
  have hparent : t.Within x b.parent := b.within_sibling.trans (.of_under (b.under_sibling h))
  have hne : x ≠ b.parent := fun he => b.parent_not_within h (he ▸ .refl t x)
  obtain ⟨p, hp, hw⟩ := hparent.eq_or_under.resolve_left hne
  exact ⟨p, hp, hw.trans b.within_root⟩

/-! A tree `u` that has a new node in place of `x`, and nothing in place of the row. -/

section Substituted

variable {m : Node} (ht : t.Sound) (hu : u.Sound) (hg : grown.Linked)
  (g : Grafted t grown [m] [r]) (hall : Recast t u (substitute x r row))
  (hrecast : Recast grown u (substitute x r row))

include ht

include hg g hrecast in
/-- Below the new node nothing changes. -/
theorem children_of_new (hp : t.size ≤ p) (hlt : p < grown.size) :
    u.children p = grown.children p ∧ ∀ c ∈ grown.children p, t.size ≤ c := by
  have hnew : ∀ c ∈ grown.children p, t.size ≤ c := fun c hc => by
    by_contra hold
    have hunder := hg.mem_children.1 hc
    rw [Under, parent?, g.slot_eq c (Nat.lt_of_not_le hold)] at hunder
    exact Nat.not_lt.2 hp (ht.linked.parent_lt_size hunder)
  refine ⟨?_, hnew⟩
  rw [hrecast.children_eq p hlt]
  refine (List.flatMap_congr fun c hc => substitute_of_ne ?_ ?_).trans (List.flatMap_singleton' _)
  · obtain ⟨q, hunder, -⟩ := b.exists_under ht.linked
    exact (hunder.lt_size.trans_le (hnew c hc)).ne'
  · exact fun hrow => Nat.not_lt.2 (hnew c hc) (b.under_of_mem_row ht.linked hrow).lt_size

include hu hg g hall hrecast in
/-- What stands in the tree afterwards is new, or stood there beside what was changed. -/
theorem old_or_new (hid : u.Within id u.root) :
    (t.Within id t.root ∧ ¬ t.Within id x ∧ ∀ d ∈ row, ¬ t.Within id d) ∨
      t.size ≤ id ∧ id < grown.size := by
  have hl := ht.linked
  rw [hall.root_eq] at hid
  induction hid using Relation.ReflTransGen.head_induction_on with
  | refl =>
    refine .inl ⟨.refl t _, fun hw => ?_, fun d hd hw => ?_⟩
    · exact b.parent_not_within hl (b.within_root.trans hw)
    · exact hl.not_within_of_under (b.under_of_mem_row hl hd) (b.within_root.trans hw)
  | @head id p hunder hp ih =>
    have hmem := hu.linked.mem_children.2 hunder
    rcases ih with ⟨hroot, hx, hrow⟩ | ⟨hnew, hlt⟩
    · rw [hall.children_eq p (hroot.lt_size ht.root_lt_size), List.mem_flatMap] at hmem
      obtain ⟨c, hc, hplace⟩ := hmem
      have hcp := hl.mem_children.1 hc
      rw [substitute] at hplace
      split at hplace
      next =>
        rw [List.mem_singleton.1 hplace]
        exact .inr ⟨g.new r List.mem_cons_self, g.loose.lt_size r List.mem_cons_self⟩
      next hcx =>
        split at hplace
        next => cases hplace
        next hcrow =>
          rw [List.mem_singleton.1 hplace]
          refine .inl ⟨.trans (.of_under hcp) hroot, fun hw => hx (hw.of_parent hcp hcx),
            fun d hd hw => hrow d hd (hw.of_parent hcp ?_)⟩
          rintro rfl
          exact hcrow hd
    · obtain ⟨hchildren, hnewer⟩ := b.children_of_new ht hg g hrecast hnew hlt
      rw [hchildren] at hmem
      exact .inr ⟨hnewer id hmem, hg.lt_size_of_mem hmem⟩

include hu hg g hall hrecast in
/-- The integrity check finds afterwards what it would have found beside what was changed. -/
theorem spoilt_iff (hm : m.Bare) :
    u.Within id u.root ∧ u.isOvergrown id = true ↔ t.Spoilt x row id := by
  have hl := ht.linked
  constructor
  · rintro ⟨hid, hgrown⟩
    rw [isOvergrown, Bool.and_eq_true, Bool.not_eq_true', List.isEmpty_eq_false_iff] at hgrown
    rcases b.old_or_new ht hu hg g hall hrecast hid with ⟨hroot, hx, hrow⟩ | ⟨hnew, hlt⟩
    · have hsize := hroot.lt_size ht.root_lt_size
      refine ⟨hroot, ?_, hx, hrow⟩
      rw [isOvergrown, Bool.and_eq_true, Bool.not_eq_true', List.isEmpty_eq_false_iff]
      refine ⟨?_, fun hnil => hgrown.2 ?_⟩
      · rw [isToken, ← hall.tokenText?_eq id hsize]
        exact hgrown.1
      · rw [hall.children_eq id hsize, hnil, List.flatMap_nil]
    · have htoken : grown.isToken id = true := by
        rw [isToken, ← hrecast.tokenText?_eq id hlt]
        exact hgrown.1
      rw [(b.children_of_new ht hg g hrecast hnew hlt).1] at hgrown
      exact absurd (g.bare (by simpa using hm) id hnew htoken) hgrown.2
  · intro hs
    have hsize := hs.within_root.lt_size ht.root_lt_size
    have hgrown := hs.overgrown
    rw [isOvergrown, Bool.and_eq_true, Bool.not_eq_true', List.isEmpty_eq_false_iff] at hgrown
    refine ⟨hall.root_eq ▸ hall.within hl hu.linked hs.within_root fun c hc _ _ =>
      substitute_of_ne (fun he => hs.not_within (he ▸ hc))
        fun hrow => hs.not_within_row c hrow hc, ?_⟩
    rw [isOvergrown, Bool.and_eq_true, Bool.not_eq_true', List.isEmpty_eq_false_iff]
    refine ⟨?_, fun hnil => ?_⟩
    · rw [isToken, hall.tokenText?_eq id hsize]
      exact hgrown.1
    · -- all its children would be in the row, but the row has a sibling that stays
      rw [hall.children_eq id hsize, List.flatMap_eq_nil_iff] at hnil
      have hrow : ∀ c ∈ t.children id, c ∈ row := fun c hc => by
        have hplace := hnil c hc
        rw [substitute] at hplace
        split at hplace
        · cases hplace
        · split at hplace
          · assumption
          · cases hplace
      obtain ⟨c, hc⟩ := List.exists_mem_of_ne_nil _ hgrown.2
      have hparent : id = b.parent :=
        (hl.mem_children.1 hc).parent_unique (b.under_of_mem_row hl (hrow c hc))
      have hsibling := hrow b.sibling (hparent ▸ hl.mem_children.2 (b.under_sibling hl))
      exact b.ne_sibling hl (.inr (.inl hsibling)) rfl

end Substituted

end RowBefore

end Tree

theorem Parse.exists_events {grammar : Grammar} {source : String} {base : Nat} {p : Parse}
    (h : after grammar source base = .ok p) : ∃ events, p.tree = .ofEvents events := by
  cases hg : grammar source with
  | none =>
    rw [after, hg] at h
    exact ⟨_, congrArg Parse.tree (Except.ok.inj h).symm⟩
  | some root =>
    rw [after_eq hg rfl] at h
    split at h
    next => cases h
    next => exact ⟨_, congrArg Parse.tree (Except.ok.inj h).symm⟩

namespace Fragment

theorem exists_events {grammar : Grammar} {kind : FragmentKind} {text : String} {tree : Tree}
    (h : treeOf grammar kind text = .ok tree) : ∃ events, tree = .ofEvents events := by
  cases kind with
  | token =>
    obtain ⟨_, -, rfl⟩ := exists_of_tokenTree_eq_ok h
    exact ⟨_, rfl⟩
  | statement =>
    obtain ⟨_, hsnippet, -, -, rfl⟩ := exists_of_statementTree_eq_ok h
    exact Parse.exists_events hsnippet
  | expression =>
    obtain ⟨_, _, -, -, -, -, -, rfl, -⟩ := exists_of_expressionTree_eq_ok rfl h
    exact ⟨_, rfl⟩

/-- The node that a text is read as stands in a tree whose tokens are leaves. -/
theorem bare_node {grammar : Grammar} {kind : FragmentKind} {text : String} {fragment : Fragment}
    (h : parse grammar text kind = .ok fragment) : (fragment.tree.node fragment.node).Bare := by
  rw [parse] at h
  split at h
  next => cases h
  next tree htree =>
    obtain ⟨events, rfl⟩ := exists_events htree
    have hsound := Tree.sound_ofEvents events
    split at h
    next node rest hsolid =>
      obtain rfl := Except.ok.inj h
      have hmem : node ∈ (Tree.ofEvents events).children (Tree.ofEvents events).root :=
        List.mem_of_mem_filter (hsolid ▸ List.mem_cons_self)
      exact (Tree.bare_ofEvents events).node hsound.linked (hsound.linked.lt_size_of_mem hmem)
    next => cases h

end Fragment

namespace Edit

open PhpLint.Tree

variable {grammar : Grammar} {t u : Tree} {p target : NodeId} {ids row : List NodeId}
  {kind : FragmentKind} {text : String} {fragment : Fragment}

theorem structurally_eq_ok {α : Type} {edit : TreeEdit α} {a : α} (h : edit t = .ok a u) :
    structurally edit t = .ok u := by
  rw [structurally, EStateM.run, h]

theorem exists_delete (grammar : Grammar) (ht : t.Sound) {d : NodeId} (hu : t.Under d p)
    (hattached : t.isAttached d = true) :
    ∃ u, Edit.apply grammar t (.delete d) = .ok u ∧ Tree.remove d t = .ok (t.index d) u := by
  have hremove := ht.remove_eq_ok hu hattached
  refine ⟨_, ?_, hremove⟩
  rw [apply, hattached]
  exact structurally_eq_ok hremove

/-- Children of one node go one after the other. -/
theorem exists_deletes (grammar : Grammar) (ht : t.Sound) (hp : t.Within p t.root)
    (hids : ∀ d ∈ ids, t.Under d p) (hnodup : ids.Nodup) :
    ∃ u, (ids.map Edit.delete).foldlM (Edit.apply grammar) t = .ok u := by
  induction ids generalizing t with
  | nil => exact ⟨t, rfl⟩
  | cons d ids ih =>
    rw [List.forall_mem_cons] at hids
    rw [List.nodup_cons] at hnodup
    obtain ⟨staged, hdelete, hremove⟩ := exists_delete grammar ht hids.1
      ((ht.isAttached_of_within (.trans (.of_under hids.1) hp)).trans ht.isAttached_root)
    have hstaged := ht.of_remove hremove
    have hrecast := ht.recast_remove hremove
    have hwithin : staged.Within p staged.root := hrecast.root_eq ▸
      hrecast.within ht.linked hstaged.linked hp fun c hc _ _ => if_neg fun he : c = d =>
        ht.linked.not_within_of_under hids.1 (he ▸ hc)
    have hunder : ∀ c ∈ ids, staged.Under c p := fun c hc => by
      have hne : c ≠ d := fun he => hnodup.1 (he ▸ hc)
      rw [← hstaged.linked.mem_children,
        hrecast.children_eq p (ht.linked.parent_lt_size hids.1), List.mem_flatMap]
      exact ⟨c, ht.linked.mem_children.2 (hids.2 c hc), by rw [if_neg hne]; exact .head _⟩
    obtain ⟨u, hu⟩ := ih hstaged hwithin hunder hnodup.2
    exact ⟨u, by rw [List.map_cons, List.foldlM_cons, hdelete]; exact hu⟩

/-- Whatever text can be read as a node is put in place of an attached node. -/
theorem exists_replace (ht : t.Sound) (hunder : t.Under target p)
    (hattached : t.isAttached target = true)
    (hparse : Fragment.parse grammar text kind = .ok fragment) :
    ∃ u, Edit.apply grammar t (.replace target kind text) = .ok u ∧
      Tree.replace target (t.graft (fragment.tree.node fragment.node)).2
        (t.graft (fragment.tree.node fragment.node)).1 = .ok () u := by
  have hgraft : graft grammar t text kind = .ok (t.graft (fragment.tree.node fragment.node)) := by
    rw [graft, hparse]
  have hsound := ht.graft (fragment.tree.node fragment.node)
  have hgrafted := ht.linked.graft (fragment.tree.node fragment.node)
  have hold : (t.graft (fragment.tree.node fragment.node)).1.slot target = t.slot target :=
    hgrafted.slot_eq target (lt_size_of_isAttached hattached)
  have hr : (t.graft (fragment.tree.node fragment.node)).1.isAttached
      (t.graft (fragment.tree.node fragment.node)).2 = false :=
    hgrafted.detached _ (hgrafted.new _ List.mem_cons_self)
  have hunder' : (t.graft (fragment.tree.node fragment.node)).1.Under target p := by
    rw [Under, parent?, hold]
    exact hunder
  obtain ⟨u, hu⟩ := hsound.exists_replace hunder' (by rw [isAttached, hold]; exact hattached) hr
    (hgrafted.loose.parent?_eq _ List.mem_cons_self)
  refine ⟨u, ?_, hu⟩
  rw [apply, hattached, hgraft]
  exact structurally_eq_ok hu

/-- The replacement leaves the row where it is, and so the whole plan goes through. -/
theorem exists_replace_and_deletes (b : t.RowBefore row target) (ht : t.Sound)
    (hparse : Fragment.parse grammar text kind = .ok fragment) :
    ∃ grown r u, (.replace target kind text :: row.reverse.map Edit.delete).foldlM
        (Edit.apply grammar) t = .ok u ∧ u.Sound ∧ grown.Sound ∧
      Grafted t grown [fragment.tree.node fragment.node] [r] ∧
      Recast t u (substitute target r row) ∧ Recast grown u (substitute target r row) := by
  have hl := ht.linked
  obtain ⟨p, hunder, hp⟩ := b.exists_under hl
  obtain ⟨staged, happly, hreplace⟩ := exists_replace ht hunder
    ((ht.isAttached_of_within (.trans (.of_under hunder) hp)).trans ht.isAttached_root) hparse
  have hgrown := ht.graft (fragment.tree.node fragment.node)
  have hgrafted := hl.graft (fragment.tree.node fragment.node)
  have hgrow := hl.recast_graft (fragment.tree.node fragment.node)
  obtain ⟨grown, r, hgraft⟩ : ∃ grown r, t.graft (fragment.tree.node fragment.node) = (grown, r) :=
    ⟨_, _, rfl⟩
  rw [hgraft] at hreplace hgrown hgrafted hgrow
  dsimp only at hreplace hgrown hgrafted hgrow
  have hr := hgrafted.loose.lt_size r List.mem_cons_self
  have hstaged := hgrown.of_replace hr hreplace
  have hrecast := hgrown.recast_replace hr hreplace
  have hall : Recast t staged fun c => if c = target then [r] else [c] := by
    simpa using hgrow.trans hrecast
  have hparent : staged.Within b.parent staged.root := hall.root_eq ▸
    hall.within hl hstaged.linked b.within_root fun c hc _ _ => if_neg fun he : c = target =>
      b.parent_not_within hl (he ▸ hc)
  have hrow : ∀ d ∈ row.reverse, staged.Under d b.parent := fun d hd => by
    rw [List.mem_reverse] at hd
    rw [← hstaged.linked.mem_children, hall.children_eq _ (hl.parent_lt_size (b.under_sibling hl)),
      List.mem_flatMap]
    exact ⟨d, b.mem_children (.inr (.inl hd)), by rw [if_neg (b.ne_of_mem_row hl hd)]; exact .head _⟩
  obtain ⟨u, hdeletes⟩ := exists_deletes grammar hstaged hparent hrow
    (List.nodup_reverse.2 (b.nodup_row hl))
  have hplan : (.replace target kind text :: row.reverse.map Edit.delete).foldlM
      (Edit.apply grammar) t = .ok u := by
    rw [List.foldlM_cons, happly]
    exact hdeletes
  have hrow' : r ∉ row := fun hmem => Nat.not_lt.2 (hgrafted.new r List.mem_cons_self)
    (b.under_of_mem_row hl hmem).lt_size
  have hinto : (fun c => (if c = target then [r] else [c]).flatMap fun c =>
      if c ∈ row.reverse then [] else [c]) = substitute target r row := by
    funext c
    by_cases hc : c = target <;> simp [substitute, hc, hrow']
  exact ⟨grown, r, u, hplan, ((later_of_foldlM hplan).sound_and_kept ht).1, hgrown, hgrafted,
    hinto ▸ hall.trans (recast_of_deletes hstaged hdeletes),
    hinto ▸ hrecast.trans (recast_of_deletes hstaged hdeletes)⟩

end Edit

/-! Planning for a tree's own findings. -/

namespace CascadeReplace

open ReplaceCall

variable {ctx : RuleContext} {node : NodeId} {f : Finding} {fix : Fix}

theorem planEdits_mergeFix {t : Tree} {patch eliminate : Handle} {short : Bool}
    (hlater : (ofCall? (t.node patch.id)).isSome = true)
    (hearlier : (ofCall? (t.node eliminate.id)).isSome = true) :
    ∃ edits, Fix.planEdits t (.mergeCalls patch eliminate short) = .ok edits := by
  obtain ⟨later, hlater⟩ := Option.isSome_iff_exists.1 hlater
  obtain ⟨earlier, hearlier⟩ := Option.isSome_iff_exists.1 hearlier
  simp only [Fix.planEdits, Fix.planMerge, hlater, hearlier]
  exact ⟨_, rfl⟩

theorem Cascade.previous_within_root (c : Cascade ctx.tree node) (ht : ctx.tree.Sound)
    (hnode : ctx.tree.Within node ctx.tree.root) : ctx.tree.Within c.previous ctx.tree.root := by
  obtain ⟨b⟩ := c.nonempty_rowBefore ht hnode
  exact .trans (.of_under (b.under_of_mem_row ht.linked List.mem_cons_self)) b.within_root

/-- The nodes that a finding's fix names are in the tree, and of the kinds that the fix is for. -/
theorem handles_and_edits (ht : ctx.tree.Sound) (hnode : ctx.tree.Within node ctx.tree.root)
    (h : f ∈ rule.check ctx node) (hfix : f.fix = some fix) :
    (∀ handle ∈ fix.handles, ∃ id, handle = ctx.tree.handle id ∧
      ctx.tree.Within id ctx.tree.root) ∧ ∃ edits, Fix.planEdits ctx.tree fix = .ok edits := by
  have hl := ht.linked
  have hbelow : ∀ m ∈ (ctx.tree.node node).preorder, ctx.tree.Within m.id ctx.tree.root :=
    fun m hm => (hl.within_of_mem_preorder_node hm).trans hnode
  rcases fix_of_mem_check h hfix with ⟨c, rfl⟩ | ⟨call, parts, hcall, hparts, hfix⟩
  · have hlater := mem_preorder_of_valueOf? c.laterCall_eq
    have hearlier :=
      (c.assignment_holds hl).of_mem_preorder (mem_preorder_of_valueOf? c.earlierCall_eq)
    refine ⟨?_, planEdits_mergeFix ?_ ?_⟩
    · simp only [mergeFix, Fix.handles, List.forall_mem_cons, List.not_mem_nil, false_imp_iff,
        implies_true, and_true]
      exact ⟨⟨_, rfl, hbelow _ hlater⟩,
        ⟨_, rfl, (c.earlierCall_within hl).trans (c.previous_within_root ht hnode)⟩⟩
    · rw [Tree.handle, hl.node_of_mem_preorder hlater, c.later_eq]
      rfl
    · rw [Tree.handle, hl.node_eq hearlier, c.earlier_eq]
      rfl
  · have hmem := mem_preorder_of_valueOf? hcall
    have hargument : ∀ m ∈ call.arguments, m ∈ (ctx.tree.node node).preorder := fun m hm => by
      obtain ⟨list, hlist, hmember⟩ := Node.exists_child_of_mem_arguments hm
      exact Node.mem_preorder_trans hmem (Node.mem_preorder_of_child hlist
        (Node.mem_preorder_of_child hmember (Node.mem_preorder_self _)))
    rcases hfix with ⟨hnested, rfl⟩ | ⟨literal, hliteral, rfl⟩
    · have hsubject := hargument parts.subject (by simp [(arguments_of_ofCall? hparts).2])
      rw [isReplaceCall, Bool.and_eq_true] at hnested
      refine ⟨?_, planEdits_mergeFix ?_ ?_⟩
      · simp only [mergeFix, Fix.handles, List.forall_mem_cons, List.not_mem_nil, false_imp_iff,
          implies_true, and_true]
        exact ⟨⟨_, rfl, hbelow _ hmem⟩, ⟨_, rfl, hbelow _ hsubject⟩⟩
      · rw [Tree.handle, hl.node_of_mem_preorder hmem, hparts]
        rfl
      · rw [Tree.handle, hl.node_of_mem_preorder hsubject]
        exact hnested.1
    · have hsearch := hargument parts.search (by simp [(arguments_of_ofCall? hparts).2])
      refine ⟨?_, _, planEdits_simplifySearch hcall hparts hliteral⟩
      simp only [Fix.handles, List.forall_mem_cons, List.not_mem_nil, false_imp_iff,
        implies_true, and_true]
      exact ⟨_, rfl, hbelow _ hsearch⟩

theorem exists_plan (ht : ctx.tree.Sound) (hnode : ctx.tree.Within node ctx.tree.root)
    (h : f ∈ rule.check ctx node) (hfix : f.fix = some fix) :
    ∃ plan, fix.plan ctx.tree = .ok plan := by
  obtain ⟨hhandles, edits, hedits⟩ := handles_and_edits ht hnode h hfix
  have hvalid : fix.handles.find? (!ctx.tree.isValid ·) = none :=
    List.find?_eq_none.2 fun handle hhandle => by
      obtain ⟨id, rfl, hw⟩ := hhandles handle hhandle
      simp [Tree.isValid, Tree.handle, ht.isAttached_of_within hw, ht.isAttached_root]
  rw [Fix.plan, hvalid, hedits]
  exact ⟨_, rfl⟩

/-- A call is not the assignment or `return` that takes its result, so it stands below that. -/
theorem call_ne_root (ht : ctx.tree.Sound) (hnode : ctx.tree.Within node ctx.tree.root)
    {call : Node} {parts : ReplaceCall} (hcall : valueOf? (ctx.tree.node node) = some call)
    (hparts : ofCall? call = some parts) : call.id ≠ ctx.tree.root := fun hroot => by
  have hmem := mem_preorder_of_valueOf? hcall
  have hw := ht.linked.within_of_mem_preorder_node hmem
  rw [hroot] at hw
  have hself : call = ctx.tree.node node := by
    rw [← ht.linked.node_of_mem_preorder hmem, hroot, ht.linked.within_antisymm hw hnode]
  have hkind := (arguments_of_ofCall? hparts).1
  rw [hself] at hkind
  simp [valueOf?, hkind] at hcall

theorem target_ne_root (ht : ctx.tree.Sound) (hnode : ctx.tree.Within node ctx.tree.root)
    (h : f ∈ rule.check ctx node) (hfix : f.fix = some fix) : fix.target ≠ ctx.tree.root := by
  rcases fix_of_mem_check h hfix with ⟨c, rfl⟩ | ⟨call, parts, hcall, hparts, hfix⟩
  · exact call_ne_root ht hnode c.laterCall_eq c.later_eq
  · rcases hfix with ⟨-, rfl⟩ | ⟨literal, -, rfl⟩
    · exact call_ne_root ht hnode hcall hparts
    · have hholds := ht.linked.holds_node (hnode.lt_size ht.root_lt_size)
      have hargument : parts.search ∈ call.arguments := by simp [(arguments_of_ofCall? hparts).2]
      obtain ⟨list, hlist, hsearch⟩ := Node.exists_child_of_mem_arguments hargument
      have hunder := ht.linked.under_of_mem
        ((hholds.of_mem_preorder (mem_preorder_of_valueOf? hcall)).of_mem hlist) hsearch
      exact ht.ne_root_of_under hunder

end CascadeReplace

namespace Fix

variable {admits : Tree → NodeId → Prop} {grammar : Grammar} {t : Tree} {o : Options}
  {classes : ClassLookup} {f : Finding} {fix : Fix} {text : String}

/-- The plan that a fix of the tree has, given the new text. -/
def planWith (t : Tree) (fix : Fix) (text : String) : EditPlan :=
  ⟨fix.name, .replace fix.target .expression text :: (fix.dropped t).reverse.map .delete⟩

theorem apply_of_rejected {e : EditError} (hplan : fix.plan t = .ok (fix.planWith t text))
    (hattached : t.isAttached fix.target = true)
    (hgraft : Edit.graft grammar t text .expression = .error e) :
    fix.apply grammar t = .error e := by
  have hedits : (fix.planWith t text).edits.foldlM (Edit.apply grammar) t = .error e := by
    rw [planWith, List.foldlM_cons, Edit.apply, hattached, hgraft]
    rfl
  rw [apply, hplan]
  dsimp only
  rw [EditPlan.apply, hedits]

theorem apply_of_edits {u : Tree} (hplan : fix.plan t = .ok (fix.planWith t text))
    (hedits : (fix.planWith t text).edits.foldlM (Edit.apply grammar) t = .ok u) :
    fix.apply grammar t = match u.defect? with
      | some defect => .error (.malformed defect.message)
      | none => .ok (u, ⟨fix.name, (fix.dropped t).length + 1⟩) := by
  rw [apply, hplan]
  dsimp only
  rw [EditPlan.apply, hedits]
  cases hdefect : u.defect? <;> simp [planWith, hdefect]

/-- A fix offered for a tree can be planned there, and once its text is read as an expression every
edit of the plan is carried out. Applying it then fails only where a token with something below it
stands beside what is changed, as it never does in a tree that passes the integrity check. -/
theorem applies_to_own_tree (grammar : Grammar) (hrun : Tree.Run admits t)
    (hf : f ∈ (Analysis.new o).findings t classes) (hfix : f.fix = some fix) :
    ∃ text, fix.plan t = .ok (fix.planWith t text) ∧
      (∀ e, Fragment.parse grammar text .expression = .error (.rejected e) →
        fix.apply grammar t = .error (.parse e)) ∧
      (∀ fault, Fragment.parse grammar text .expression = .error (.unscannable fault) →
        fix.apply grammar t = .error (.unscannable fault)) ∧
      ∀ fragment, Fragment.parse grammar text .expression = .ok fragment →
        (∃ u, (fix.planWith t text).edits.foldlM (Edit.apply grammar) t = .ok u) ∧
        ((∀ id, ¬ t.Spoilt fix.target (fix.dropped t) id) →
          ∃ u, fix.apply grammar t = .ok (u, ⟨fix.name, (fix.dropped t).length + 1⟩)) ∧
        (∀ id, t.Spoilt fix.target (fix.dropped t) id →
          ∃ id, t.Spoilt fix.target (fix.dropped t) id ∧ fix.apply grammar t =
            .error (.malformed (Tree.Defect.tokenHasChildren id).message)) ∧
        (t.defect? = none → ∀ id, ¬ t.Spoilt fix.target (fix.dropped t) id) := by
  obtain ⟨node, hnode, rule, hrule, hcheck⟩ := Analysis.exists_check_of_mem_findings hf
  obtain ⟨ctx, rfl, hcascade⟩ :
      ∃ ctx : RuleContext, ctx.tree = t ∧ f ∈ CascadeReplace.rule.check ctx node :=
    ⟨_, rfl, mem_cascade_of_fix hrule hcheck hfix⟩
  have ht := hrun.sound
  have hwithin : ctx.tree.Within node ctx.tree.root :=
    (ht.linked.mem_preorder ht.root_lt_size).1 (List.mem_of_mem_filter hnode)
  obtain ⟨plan, hplan⟩ := CascadeReplace.exists_plan ht hwithin hcascade hfix
  obtain ⟨text, rfl⟩ := exists_plan_eq hplan
  obtain ⟨b⟩ := CascadeReplace.nonempty_rowBefore ht hwithin hcascade hfix
    (CascadeReplace.target_ne_root ht hwithin hcascade hfix)
  have hattached : ctx.tree.isAttached fix.target = true := by
    obtain ⟨p, hunder, hp⟩ := b.exists_under ht.linked
    exact (ht.isAttached_of_within (.trans (.of_under hunder) hp)).trans ht.isAttached_root
  refine ⟨text, hplan, fun e he => apply_of_rejected hplan hattached (by rw [Edit.graft, he]),
    fun fault he => apply_of_rejected hplan hattached (by rw [Edit.graft, he]),
    fun fragment hparse => ?_⟩
  obtain ⟨grown, r, u, hedits, hu, hgrown, hgrafted, hall, hrecast⟩ :=
    Edit.exists_replace_and_deletes b ht hparse
  have hspoilt : ∀ id, u.Within id u.root ∧ u.isOvergrown id = true ↔
      ctx.tree.Spoilt fix.target (fix.dropped ctx.tree) id := fun id =>
    b.spoilt_iff ht hu hgrown.linked hgrafted hall hrecast (Fragment.bare_node hparse)
  have happly := apply_of_edits hplan hedits
  rw [happly, hu.defect?_eq]
  refine ⟨⟨u, hedits⟩, fun hnone => ?_, fun id hid => ?_, fun hdefect _ => ht.not_spoilt hdefect⟩
  · have hfind : (u.preorder u.root).find? u.isOvergrown = none :=
      List.find?_eq_none.2 fun id hid hgrew =>
        hnone id ((hspoilt id).1 ⟨(hu.linked.mem_preorder hu.root_lt_size).1 hid, hgrew⟩)
    rw [hfind]
    exact ⟨u, rfl⟩
  · obtain ⟨hroot, hgrew⟩ := (hspoilt id).2 hid
    have hsome : ((u.preorder u.root).find? u.isOvergrown).isSome :=
      List.find?_isSome.2 ⟨id, (hu.linked.mem_preorder hu.root_lt_size).2 hroot, hgrew⟩
    obtain ⟨first, hfirst⟩ := Option.isSome_iff_exists.1 hsome
    have hwithin := (hu.linked.mem_preorder hu.root_lt_size).1 (List.mem_of_find?_eq_some hfirst)
    rw [hfirst]
    exact ⟨first, (hspoilt first).1 ⟨hwithin, List.find?_some hfirst⟩, rfl⟩

open CascadeReplace

theorem applies_to_own_tree_mergeLines : ∃ u,
    mergeLines.apply mergedGrammar twoLines = .ok (u, ⟨"Merge str_replace(...) calls", 3⟩) := by
  have hrun : Tree.Run (fun _ _ => True) twoLines := .built _
  have hfound : (((Analysis.new .standard).findings twoLines .unknown).any
      (·.fix == some mergeLines)) = true := by decide +kernel
  have hreads : ((mergeLines.plan twoLines).toOption.all fun plan => plan.edits.all fun
      | .replace _ kind text => (Fragment.parse mergedGrammar text kind).toOption.isSome
      | _ => true) = true := by decide +kernel
  obtain ⟨f, hf, hfix⟩ := List.any_eq_true.1 hfound
  obtain ⟨text, hplan, -, -, happlies⟩ :=
    applies_to_own_tree mergedGrammar hrun hf (eq_of_beq hfix)
  rw [hplan] at hreads
  obtain ⟨fragment, hparse⟩ : ∃ fragment,
      Fragment.parse mergedGrammar text .expression = .ok fragment :=
    exists_of_toOption (List.all_eq_true.1 hreads _ List.mem_cons_self)
  obtain ⟨-, hdone, -, hsound⟩ := happlies fragment hparse
  obtain ⟨u, hu⟩ := hdone (hsound (by decide +kernel))
  have hedits : (mergeLines.dropped twoLines).length + 1 = 3 := by decide +kernel
  rw [hedits] at hu
  exact ⟨u, hu⟩

/-- The two lines, and a semicolon put in under the one that ends the second line. -/
def spoiltLines : Tree :=
  Tree.left (Tree.insert 39 0 42) (twoLines.graft (twoLines.node 39)).1

theorem exists_run_apply_eq_malformed : Tree.Run (fun _ _ => True) spoiltLines ∧
    (∃ f ∈ (Analysis.new .standard).findings spoiltLines .unknown, f.fix = some mergeLines) ∧
    mergeLines.apply mergedGrammar spoiltLines =
      .error (.malformed "token NodeId(39) has children") := by
  have hfound : (((Analysis.new .standard).findings spoiltLines .unknown).any
      (·.fix == some mergeLines)) = true := by decide +kernel
  obtain ⟨f, hf, hfix⟩ := List.any_eq_true.1 hfound
  refine ⟨.insert 0 (.graft (.built _) (.built _) (by decide +kernel)) trivial
    (by decide +kernel),
    ⟨f, hf, eq_of_beq hfix⟩, ?_⟩
  decide +kernel

end Fix

end PhpLint
