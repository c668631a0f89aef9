import PhpLint.Proofs.Analysis.Filtering
import PhpLint.Proofs.ReplaceCall.Outdated
import PhpLint.Proofs.Tree.Splicing

/-! What carrying out a fix does to the text. One node gets another text, and a statement before it
may go, with the white space behind it; all of it as if done at once in the text as it was, where
nothing else changes. -/

namespace PhpLint

namespace Tree

variable {t u : Tree} {c d p q s x r : NodeId} {row left between right : List NodeId}

/-- The nodes of `row` follow one another among the children of a node of the tree, and `x` stands
within a later one of these children. -/
structure RowBefore (t : Tree) (row : List NodeId) (x : NodeId) where
  parent : NodeId
  sibling : NodeId
  left : List NodeId
  between : List NodeId
  right : List NodeId
  children_eq : t.children parent = left ++ row ++ between ++ sibling :: right
  within_sibling : t.Within x sibling
  within_root : t.Within parent t.root

namespace RowBefore

variable (b : t.RowBefore row x)

include b

theorem under_sibling (h : t.Linked) : t.Under b.sibling b.parent :=
  (h.index_of_split b.children_eq).1

theorem mem_children (hd : d ∈ b.left ∨ d ∈ row ∨ d ∈ b.between ∨ d ∈ b.right) :
    d ∈ t.children b.parent := by
  rw [b.children_eq]
  simp only [List.mem_append, List.mem_cons]
  tauto

theorem ne_sibling (h : t.Linked) (hd : d ∈ b.left ∨ d ∈ row ∨ d ∈ b.between ∨ d ∈ b.right) :
    d ≠ b.sibling := by
  have hnodup := b.children_eq ▸ h.nodup b.parent
  rw [List.nodup_middle, List.nodup_cons] at hnodup
  rintro rfl
  refine hnodup.1 ?_
  simp only [List.mem_append]
  tauto

theorem notMem_row (h : t.Linked) (hd : d ∈ b.left ∨ d ∈ b.between ∨ d ∈ b.right) : d ∉ row := by
  have hnodup := b.children_eq ▸ h.nodup b.parent
  intro hmem
  simp only [List.nodup_append, List.nodup_cons, List.mem_append, List.mem_cons] at hnodup
  rcases hd with hd | hd | hd
  · exact hnodup.1.1.2.2 d hd d hmem rfl
  · exact hnodup.1.2.2 d (.inr hmem) d hd rfl
  · exact hnodup.2.2 d (.inl (.inr hmem)) d (.inr hd) rfl

/-- What stands within a node of the row is not around `x`. -/
theorem not_within_row (h : t.Linked) (hd : d ∈ row) (hq : t.Within x q) : ¬ t.Within q d :=
  fun hw => h.not_within_of_sibling (b.under_sibling h)
    (h.mem_children.1 (b.mem_children (.inr (.inl hd)))) (b.ne_sibling h (.inr (.inl hd))).symm
    b.within_sibling (hq.trans hw)

end RowBefore

/-- `r` in place of `x`, and nothing in place of the nodes of the row. -/
def substitute (x r : NodeId) (row : List NodeId) (c : NodeId) : List NodeId :=
  if c = x then [r] else if c ∈ row then [] else [c]

theorem substitute_of_ne (hx : c ≠ x) (hrow : c ∉ row) : substitute x r row c = [c] := by
  rw [substitute, if_neg hx, if_neg hrow]

namespace RowBefore

variable (b : t.RowBefore row x)

include b

theorem substitute_around (h : t.Linked) (hq : t.Within x q) (hne : q ≠ x) :
    substitute x r row q = [q] :=
  substitute_of_ne hne fun hrow => b.not_within_row h hrow hq (.refl t q)

/-- The nodes around `x` are no tokens where the tree still fits together without it. -/
theorem tokenText?_around (ht : t.Sound) (hu : u.Sound)
    (hrecast : Recast t u (substitute x r row)) (hdefect : u.defect? = none)
    (hq : t.Within x q) (hroot : t.Within q t.root) (hne : q ≠ x) : t.tokenText? q = none := by
  have hsize : q < t.size := hroot.lt_size ht.root_lt_size
  obtain ⟨c, hc, hx⟩ : ∃ c, t.Under c q ∧ t.Within x c := by
    rcases Relation.ReflTransGen.cases_tail hq with he | ⟨c, hx, hc⟩
    · exact absurd he hne
    · exact ⟨c, hc, hx⟩
  have hchildren : u.children q ≠ [] := by
    have hplace : substitute x r row c ≠ [] := by
      rw [substitute, if_neg fun hrow => b.not_within_row ht.linked hrow hx (.refl t c)]
      split <;> exact List.cons_ne_nil _ _
    rw [hrecast.children_eq q hsize]
    exact fun hnil => hplace (List.flatMap_eq_nil_iff.1 hnil c (ht.linked.mem_children.2 hc))
  have hwithin : u.Within q u.root := hrecast.root_eq ▸
    hrecast.within ht.linked hu.linked hroot fun k hk _ _ =>
      b.substitute_around ht.linked (hq.trans hk) fun he =>
        hne (ht.linked.within_antisymm (he ▸ hk) hq)
  rw [hu.defect?_eq, Option.map_eq_none_iff, List.find?_eq_none] at hdefect
  have hgrown := hdefect q ((hu.linked.mem_preorder hu.root_lt_size).2 hwithin)
  rw [isOvergrown, Bool.and_eq_true, Bool.not_eq_true', List.isEmpty_eq_false_iff, isToken,
    hrecast.tokenText?_eq q hsize] at hgrown
  exact Option.not_isSome_iff_eq_none.1 fun htoken => hgrown ⟨htoken, hchildren⟩

/-- The children outside the row and beside `x` show what they showed. -/
theorem shown_beside (ht : t.Linked) (hu : u.Linked) (hrecast : Recast t u (substitute x r row))
    (hd : d ∈ b.left ∨ d ∈ b.between ∨ d ∈ b.right) :
    shown u (substitute x r row) d = t.textOf d := by
  have hd' : d ∈ b.left ∨ d ∈ row ∨ d ∈ b.between ∨ d ∈ b.right := by tauto
  have hunder := ht.mem_children.1 (b.mem_children hd')
  have hsame : ∀ c, t.Within c d → substitute x r row c = [c] := fun c hc => by
    refine substitute_of_ne ?_ fun hrow => ?_
    · rintro rfl
      exact ht.not_within_of_sibling hunder (b.under_sibling ht) (b.ne_sibling ht hd') hc
        b.within_sibling
    · have hne : d ≠ c := fun he => b.notMem_row ht hd (he ▸ hrow)
      exact ht.not_within_of_sibling hunder
        (ht.mem_children.1 (b.mem_children (.inr (.inl hrow)))) hne hc (.refl t c)
  rw [shown_of_eq (hsame d (.refl t d))]
  exact hrecast.textOf_of_untouched ht hu hunder.lt_size fun c hc _ => hsame c hc

/-- The nodes of the row show nothing any more. -/
theorem shown_row (h : t.Linked) (u : Tree) :
    String.join (row.map (shown u (substitute x r row))) = "" := by
  have hshown : ∀ d ∈ row, shown u (substitute x r row) d = "" := fun d hd => by
    have hne : d ≠ x := fun he => b.not_within_row h hd (.refl t x) (he ▸ .refl t d)
    rw [shown, substitute, if_neg hne, if_pos hd]
    rfl
  rw [List.map_congr_left hshown]
  exact String.toList_eq_nil_iff.1 (by rw [String.toList_join]; simp)

theorem parent_not_within (h : t.Linked) : ¬ t.Within b.parent x := fun hw =>
  h.not_within_of_under (b.under_sibling h) (hw.trans b.within_sibling)

theorem substitute_outside (h : t.Linked) (hc : ¬ t.Within c b.parent) :
    substitute x r row c = [c] := by
  refine substitute_of_ne ?_ fun hrow => hc ?_
  · rintro rfl
    exact hc (b.within_sibling.trans (.of_under (b.under_sibling h)))
  · exact .of_under (h.mem_children.1 (b.mem_children (.inr (.inl hrow))))

theorem substitute_in_sibling (h : t.Linked) (hc : t.Within c b.sibling) (hx : ¬ t.Within c x) :
    substitute x r row c = [c] := by
  refine substitute_of_ne ?_ fun hrow => ?_
  · rintro rfl
    exact hx (.refl t c)
  · exact h.not_within_of_sibling (h.mem_children.1 (b.mem_children (.inr (.inl hrow))))
      (b.under_sibling h) (b.ne_sibling h (.inr (.inl hrow))) (.refl t c) hc

/-- What the children show together: the row is left out, and the sibling shows what it shows. -/
theorem join_shown_children (ht : t.Linked) (hu : u.Linked)
    (hrecast : Recast t u (substitute x r row)) :
    String.join ((t.children b.parent).map (shown u (substitute x r row))) =
      String.join (b.left.map t.textOf) ++ String.join (b.between.map t.textOf) ++
        shown u (substitute x r row) b.sibling ++ String.join (b.right.map t.textOf) := by
  have hleft : b.left.map (shown u (substitute x r row)) = b.left.map t.textOf :=
    List.map_congr_left fun d hd => b.shown_beside ht hu hrecast (.inl hd)
  have hbetween : b.between.map (shown u (substitute x r row)) = b.between.map t.textOf :=
    List.map_congr_left fun d hd => b.shown_beside ht hu hrecast (.inr (.inl hd))
  have hright : b.right.map (shown u (substitute x r row)) = b.right.map t.textOf :=
    List.map_congr_left fun d hd => b.shown_beside ht hu hrecast (.inr (.inr hd))
  rw [b.children_eq]
  simp only [List.map_append, List.map_cons, String.join_append, String.join_cons, hleft,
    b.shown_row ht u, hbetween, hright, String.append_empty, String.append_assoc]

/-- The text before and after, cut at the places where something changes. -/
theorem exists_cuts (ht : t.Sound) (hu : u.Sound) (hrecast : Recast t u (substitute x r row))
    (hdefect : u.defect? = none) : ∃ before between behind,
      t.text = before ++ String.join (row.map t.textOf) ++ between ++ t.textOf x ++ behind ∧
      u.text = before ++ between ++ u.textOf r ++ behind ∧
      t.offset x =
        (before ++ String.join (row.map t.textOf) ++ between).utf8ByteSize ∧
      ∀ front d rest, row = front ++ d :: rest →
        t.offset d = (before ++ String.join (front.map t.textOf)).utf8ByteSize := by
  have hl := ht.linked
  have hparent : t.Within x b.parent := b.within_sibling.trans (.of_under (b.under_sibling hl))
  have hne : ∀ {q}, t.Within b.parent q → q ≠ x := fun hq he => b.parent_not_within hl (he ▸ hq)
  have htoken := b.tokenText?_around ht hu hrecast hdefect hparent b.within_root (hne (.refl t _))
  obtain ⟨above, below, hframed⟩ := hl.exists_framed b.within_root
  obtain ⟨inner, outer, hinner⟩ := hl.exists_framed b.within_sibling
  have htop := hframed.offset_eq fun q hq hroot _ =>
    b.tokenText?_around ht hu hrecast hdefect (hparent.trans hq) hroot (hne hq)
  refine ⟨above ++ String.join (b.left.map t.textOf),
    String.join (b.between.map t.textOf) ++ inner,
    outer ++ String.join (b.right.map t.textOf) ++ below, ?_, ?_, ?_, fun front d rest hrow => ?_⟩
  · rw [text, hframed.textOf_eq hl, hl.textOf_eq b.parent, htoken, b.children_eq]
    simp only [List.map_append, List.map_cons, String.join_append, String.join_cons,
      hinner.textOf_eq hl, Option.getD_none, String.empty_append, String.append_assoc]
  · have hroot : substitute x r row t.root = [t.root] :=
      b.substitute_around hl (hparent.trans b.within_root) (hne b.within_root)
    have hplace : substitute x r row x = [r] := if_pos rfl
    have houter := hframed.shown_eq hrecast hu.linked fun c _ hc => b.substitute_outside hl hc
    have hshown := hinner.shown_eq hrecast hu.linked fun c hc hx =>
      b.substitute_in_sibling hl hc hx
    rw [shown_of_eq hroot, shown_of_eq (b.substitute_around hl hparent (hne (.refl t _))),
      hrecast.textOf_eq hu.linked (hl.parent_lt_size (b.under_sibling hl)), htoken,
      b.join_shown_children hl hu.linked hrecast, hshown, shown, hplace] at houter
    rw [text, hrecast.root_eq, houter]
    simp only [List.map_singleton, String.join_cons, String.join_nil, String.append_empty,
      Option.getD_none, String.empty_append, String.append_assoc]
  · have hsibling := hinner.offset_eq fun q hq hqs =>
      b.tokenText?_around ht hu hrecast hdefect hq
        (hqs.trans (.trans (.of_under (b.under_sibling hl)) b.within_root))
    rw [hsibling, hl.offset_of_split b.children_eq, htop, ht.offset_root]
    simp only [List.map_append, String.join_append, String.utf8ByteSize_append]
    omega
  · subst hrow
    have hsplit : t.children b.parent =
        (b.left ++ front) ++ d :: (rest ++ b.between ++ b.sibling :: b.right) := by
      rw [b.children_eq]
      simp only [List.append_assoc, List.cons_append]
    rw [hl.offset_of_split hsplit, htop, ht.offset_root]
    simp only [List.map_append, String.join_append, String.utf8ByteSize_append]
    omega

end RowBefore

theorem lt_size_of_isAttached (h : t.isAttached c = true) : c < t.size := by
  by_contra hc
  rw [isAttached_eq_false_of_size_le (Nat.le_of_not_lt hc)] at h
  cases h

theorem Sound.within_root_of_under (h : t.Sound) (hx : t.Within x t.root) (hu : t.Under x p) :
    t.Within p t.root :=
  hx.of_parent hu (h.ne_root_of_under hu)

/-- Without a row every node below the root has its place. -/
theorem Linked.nonempty_rowBefore_nil (h : t.Linked) (hx : t.Within x t.root) (hne : x ≠ t.root) :
    Nonempty (t.RowBefore [] x) := by
  obtain ⟨p, hunder, hp⟩ := hx.eq_or_under.resolve_left hne
  obtain ⟨left, right, hsplit, -⟩ := h.exists_split hunder
  exact ⟨⟨p, x, left, [], right, by simp [hsplit], .refl t x, hp⟩⟩

end Tree

/-! Edits one after another. -/

namespace Edit

variable {grammar : Grammar} {t u : Tree} {ids : List NodeId} {target : NodeId}

theorem exists_of_structurally {α : Type} {edit : TreeEdit α} (h : structurally edit t = .ok u) :
    ∃ a, edit t = .ok a u := by
  rw [structurally] at h
  split at h
  next a v hrun => exact ⟨a, Except.ok.inj h ▸ hrun⟩
  next => cases h

theorem recast_of_deletes (ht : t.Sound)
    (h : (ids.map Edit.delete).foldlM (Edit.apply grammar) t = .ok u) :
    Tree.Recast t u fun c => if c ∈ ids then [] else [c] := by
  induction ids generalizing t with
  | nil =>
    cases h
    simpa using Tree.Recast.refl _
  | cons id ids ih =>
    rw [List.map_cons, List.foldlM_cons] at h
    obtain ⟨staged, hdelete, hrest⟩ := exists_of_bind_eq_ok h
    have hsound := ((later_of_apply hdelete).sound_and_kept ht).1
    rw [apply] at hdelete
    split at hdelete
    · cases hdelete
    · obtain ⟨i, hremove⟩ := exists_of_structurally hdelete
      have hboth := (ht.recast_remove hremove).trans (ih hsound hrest)
      have hinto : (fun c => (if c = id then [] else [c]).flatMap fun c =>
          if c ∈ ids then [] else [c]) = fun c => if c ∈ id :: ids then [] else [c] := by
        funext c
        by_cases hc : c = id <;> simp [hc]
      exact hinto ▸ hboth

/-- What is parsed is put behind the nodes of the tree, detached and with the text it has. -/
theorem exists_grafted {kind : FragmentKind} {text : String} {grown : Tree × NodeId}
    (ht : t.Sound) (h : graft grammar t text kind = .ok grown) :
    ∃ fragment, Fragment.parse grammar text kind = .ok fragment ∧ grown.1.Sound ∧
      Tree.Grafted t grown.1 [fragment.tree.node fragment.node] [grown.2] ∧
      Tree.Recast t grown.1 (fun c => [c]) ∧
      grown.1.textOf grown.2 = fragment.tree.textOf fragment.node := by
  rw [graft] at h
  split at h
  next fragment hparse =>
    obtain rfl := Except.ok.inj h
    exact ⟨fragment, hparse, ht.graft _, ht.linked.graft _, ht.linked.recast_graft _,
      ht.linked.textOf_graft _⟩
  next => cases h
  next => cases h

/-- The root cannot be replaced. -/
theorem ne_root_of_replace {kind : FragmentKind} {text : String} (ht : t.Sound)
    (h : Edit.apply grammar t (.replace target kind text) = .ok u) : target ≠ t.root := by
  rintro rfl
  rw [apply] at h
  split at h
  · cases h
  · obtain ⟨⟨grown, r⟩, hgraft, hdone⟩ := exists_of_bind_eq_ok h
    obtain ⟨_, -, hg, g, -, -⟩ := exists_grafted ht hgraft
    obtain ⟨_, hrun⟩ := exists_of_structurally hdone
    rw [Tree.replace_eq, ← g.root_eq, hg.parent?_root] at hrun
    split at hrun <;> cases hrun

/-- A node replaced and then others deleted. -/
theorem recast_of_replace_and_deletes {kind : FragmentKind} {text : String} (ht : t.Sound)
    (hids : ∀ d ∈ ids, t.isAttached d = true)
    (h : (.replace target kind text :: ids.map Edit.delete).foldlM (Edit.apply grammar) t =
      .ok u) :
    ∃ fragment r, Fragment.parse grammar text kind = .ok fragment ∧
      Tree.Recast t u (Tree.substitute target r ids) ∧
      u.textOf r = fragment.tree.textOf fragment.node := by
  have hu := ((later_of_foldlM h).sound_and_kept ht).1
  rw [List.foldlM_cons] at h
  obtain ⟨staged, hreplace, hdeletes⟩ := exists_of_bind_eq_ok h
  have hstaged := ((later_of_apply hreplace).sound_and_kept ht).1
  rw [apply] at hreplace
  split at hreplace
  · cases hreplace
  next hattached =>
    have hattached : t.isAttached target = true := by simpa using hattached
    obtain ⟨⟨grown, r⟩, hgraft, hdone⟩ := exists_of_bind_eq_ok hreplace
    obtain ⟨fragment, hparse, hg, g, hgrow, htext⟩ := exists_grafted ht hgraft
    obtain ⟨_, hrun⟩ := exists_of_structurally hdone
    have hr : r < grown.size := g.loose.lt_size r List.mem_cons_self
    have hnew : t.size ≤ r := g.new r List.mem_cons_self
    -- the copy is detached, and what the edits are about is not
    have hapart : ∀ c, t.isAttached c = true → ¬ grown.Within c r := fun c hc hw => by
      have hsame := hg.isAttached_of_within hw
      rw [g.detached r hnew, Tree.isAttached, g.slot_eq c (Tree.lt_size_of_isAttached hc)] at hsame
      exact Bool.false_ne_true (hsame.symm.trans hc)
    have hrids : r ∉ ids := fun hmem => hapart r (hids r hmem) (.refl grown r)
    have hinto : (fun c => (if c = target then [r] else [c]).flatMap fun c =>
        if c ∈ ids then [] else [c]) = Tree.substitute target r ids := by
      funext c
      by_cases hc : c = target <;> simp [Tree.substitute, hc, hrids]
    have hrecast : Tree.Recast grown u (Tree.substitute target r ids) :=
      hinto ▸ (hg.recast_replace hr hrun).trans (recast_of_deletes hstaged hdeletes)
    have hall : Tree.Recast t u (Tree.substitute target r ids) := by
      simpa using hgrow.trans hrecast
    refine ⟨fragment, r, hparse, hall, ?_⟩
    refine (hrecast.textOf_of_untouched hg.linked hu.linked hr fun c hc _ => ?_).trans htext
    refine Tree.substitute_of_ne ?_ fun hmem => hapart c (hids c hmem) hc
    rintro rfl
    exact hapart c hattached hc

end Edit

theorem EditPlan.defect?_of_apply {grammar : Grammar} {t u : Tree} {plan : EditPlan}
    {applied : AppliedFix} (h : plan.apply grammar t = .ok (u, applied)) : u.defect? = none := by
  rw [apply] at h
  split at h
  next => cases h
  next staged _ =>
    split at h
    next => cases h
    next hdefect =>
      cases h
      exact hdefect

/-! The fixes that are offered. -/

/-- The node that a fix puts another text in place of. -/
def Fix.target : Fix → NodeId
  | mergeCalls patch _ _ => patch.id
  | simplifySearch array _ => array.id

/-- What a fix takes out: the statement of the call that is merged into another one, and the white
space behind it. -/
def Fix.dropped (t : Tree) : Fix → List NodeId
  | mergeCalls _ eliminate _ => match statementOf? t eliminate.id with
    | none => []
    | some statement =>
      statement :: ((t.next? statement).filter (t.kind · == .whitespace)).toList
  | simplifySearch _ _ => []

theorem Fix.dropStatement_eq (t : Tree) (patch eliminate : Handle) (short : Bool) :
    dropStatement t eliminate.id =
      ((mergeCalls patch eliminate short).dropped t).reverse.map .delete := by
  rw [dropStatement, dropped]
  cases statementOf? t eliminate.id with
  | none => rfl
  | some statement =>
    dsimp only
    cases (t.next? statement).filter (t.kind · == .whitespace) <;> rfl

/-- What is planned: one replacement, and then the nodes that go, the last of them first. -/
theorem Fix.exists_plan_eq {t : Tree} {fix : Fix} {plan : EditPlan} (h : fix.plan t = .ok plan) :
    ∃ text, plan = ⟨fix.name,
      .replace fix.target .expression text :: (fix.dropped t).reverse.map .delete⟩ := by
  rw [Fix.plan] at h
  split at h
  next => cases h
  next =>
    cases hedits : planEdits t fix with
    | error e =>
      rw [hedits] at h
      cases h
    | ok edits =>
      rw [hedits] at h
      obtain rfl := Except.ok.inj h
      cases fix with
      | mergeCalls patch eliminate short =>
        rw [planEdits, planMerge] at hedits
        split at hedits
        next =>
          rw [← Except.ok.inj hedits, dropStatement_eq t patch eliminate short]
          exact ⟨_, rfl⟩
        next => cases hedits
      | simplifySearch array replacement =>
        rw [planEdits, planSimplify] at hedits
        split at hedits
        next =>
          rw [← Except.ok.inj hedits]
          exact ⟨_, rfl⟩
        next => cases hedits

namespace CascadeReplace

open ReplaceCall

variable {t : Tree} {node : NodeId} {ctx : RuleContext} {f : Finding} {fix : Fix}

/-- The fixes of the rule: to merge two calls in a row, to merge a call into one that it is the
subject of, and to simplify a search. -/
theorem fix_of_mem_check (h : f ∈ rule.check ctx node) (hfix : f.fix = some fix) :
    (∃ c : Cascade ctx.tree node, fix = mergeFix ctx c.laterCall.id c.earlierCall.id) ∨
    ∃ call parts, valueOf? (ctx.tree.node node) = some call ∧ ofCall? call = some parts ∧
      ((isReplaceCall parts.subject = true ∧ fix = mergeFix ctx call.id parts.subject.id) ∨
        ∃ literal, repeatedLiteral? parts.search = some literal ∧
          fix = .simplifySearch (ctx.tree.handle parts.search.id) literal) := by
  obtain ⟨call, parts, hcall, hparts,
    ⟨previous, hprevious, rfl⟩ | ⟨hnested, rfl⟩ | ⟨literal, hliteral, rfl⟩⟩ := cases_of_mem_check h
  · obtain ⟨c, rfl, rfl⟩ := exists_cascade hcall hparts hprevious
    exact .inl ⟨c, (Option.some.inj hfix).symm⟩
  · exact .inr ⟨call, parts, hcall, hparts, .inl ⟨hnested, (Option.some.inj hfix).symm⟩⟩
  · exact .inr ⟨call, parts, hcall, hparts,
      .inr ⟨literal, hliteral, (Option.some.inj hfix).symm⟩⟩

namespace Cascade

theorem kind_earlierCall (c : Cascade t node) (ht : t.Linked) :
    t.kind c.earlierCall.id = .callExpr :=
  have hholds := (c.assignment_holds ht).of_mem_preorder (mem_preorder_of_valueOf? c.earlierCall_eq)
  hholds.kind_eq.trans (arguments_of_ofCall? c.earlier_eq).1

theorem eq_previous_of_statementOf? (c : Cascade t node) (ht : t.Linked) {statement : NodeId}
    (h : Fix.statementOf? t c.earlierCall.id = some statement) : statement = c.previous := by
  rw [Fix.statementOf?, Option.filter_eq_some_iff, beq_iff_eq] at h
  obtain ⟨hbind, hkind⟩ := h
  obtain ⟨assignment, hassignment, hstatement⟩ := Option.bind_eq_some_iff.1 hbind
  rw [Option.filter_eq_some_iff, beq_iff_eq] at hassignment
  have hcall : t.Under c.earlierCall.id assignment := hassignment.1
  have hunder : t.Under assignment statement := hstatement
  have hinner : t.Within assignment c.previous :=
    (c.earlierCall_within ht).of_parent_of_kind hcall (by
      rw [c.kind_earlierCall ht, c.previous_kind]; decide)
  exact ht.within_antisymm
    (hinner.of_parent_of_kind hunder (by rw [hassignment.2, c.previous_kind]; decide))
    (c.previous_within ht (.trans (.of_under hcall) (.of_under hunder)) hkind)

theorem kind_statement_ne (c : Cascade t node) : t.kind c.statement ≠ .whitespace := by
  have h := c.statement_eq
  rw [statement?] at h
  split at h
  next hkind =>
    rw [← Option.some.inj h, hkind]
    decide
  next =>
    rw [eq_of_beq (Option.filter_eq_some_iff.1 h).2]
    decide

theorem statement_within_root (c : Cascade t node) (ht : t.Sound) (hnode : t.Within node t.root) :
    t.Within c.statement t.root := by
  have h := c.statement_eq
  rw [statement?] at h
  split at h
  next => exact Option.some.inj h ▸ hnode
  next => exact ht.within_root_of_under hnode (Option.filter_eq_some_iff.1 h).1

/-- The statement before and the white space behind it stand before the later call. -/
theorem nonempty_rowBefore (c : Cascade t node) (ht : t.Sound) (hnode : t.Within node t.root) :
    Nonempty (t.RowBefore
      (c.previous :: ((t.next? c.previous).filter (t.kind · == .whitespace)).toList)
      c.laterCall.id) := by
  have hl := ht.linked
  have hsibling : t.Within c.laterCall.id c.statement :=
    (c.laterCall_within hl).trans c.within_statement
  obtain ⟨p, hp, hfind⟩ := Option.bind_eq_some_iff.1 c.previous_eq
  have hroot := ht.within_root_of_under (c.statement_within_root ht hnode) hp
  obtain ⟨before, right, hsplit, hindex⟩ := hl.exists_split hp
  have hmem : c.previous ∈ before := by
    have hmem := List.mem_of_find?_eq_some (Option.filter_eq_some_iff.1 hfind).1
    rwa [List.mem_reverse, hindex, hsplit, List.take_left] at hmem
  obtain ⟨left, between, rfl⟩ := List.append_of_mem hmem
  rw [List.append_assoc, List.cons_append] at hsplit
  obtain ⟨hunder, hplace⟩ := hl.index_of_split hsplit
  have hnext : t.next? c.previous = (between ++ c.statement :: right).head? := by
    rw [Tree.next?, show t.parent? c.previous = some p from hunder, Option.bind_some, hplace,
      hsplit, List.getElem?_append_right (Nat.le_add_right _ 1), Nat.add_sub_cancel_left,
      List.getElem?_cons_succ, List.head?_eq_getElem?]
  rw [hnext]
  cases between with
  | nil =>
    refine ⟨⟨p, c.statement, left, [], right, ?_, hsibling, hroot⟩⟩
    simp [hsplit, Option.filter, c.kind_statement_ne]
  | cons w between =>
    by_cases hw : t.kind w = .whitespace
    · refine ⟨⟨p, c.statement, left, between, right, ?_, hsibling, hroot⟩⟩
      simp [hsplit, Option.filter, hw]
    · refine ⟨⟨p, c.statement, left, w :: between, right, ?_, hsibling, hroot⟩⟩
      simp [hsplit, Option.filter, hw]

end Cascade

/-- The subject of a call stands in an argument list, and with that within the call. -/
theorem exists_under_of_subject (ht : t.Linked) {call : Node} {parts : ReplaceCall}
    (hcall : Slots.Holds t.slots call) (hparts : ofCall? call = some parts) :
    ∃ list, t.Under parts.subject.id list ∧ t.kind list = .argList ∧ t.Under list call.id := by
  have hmem : parts.subject ∈ call.arguments := by simp [(arguments_of_ofCall? hparts).2]
  rw [Node.arguments] at hmem
  cases hlist : call.argList? with
  | none => simp [hlist] at hmem
  | some list =>
    rw [hlist] at hmem
    have hfind : call.children.find? (·.kind == .argList) = some list := hlist
    have hholds := hcall.of_mem (List.mem_of_find?_eq_some hfind)
    have hlistKind := List.find?_some hfind
    have hkind : t.kind list.id = .argList := hholds.kind_eq.trans (eq_of_beq hlistKind)
    exact ⟨list.id, ht.under_of_mem hholds (List.mem_filter.1 hmem).1, hkind,
      ht.under_of_mem hcall (List.mem_of_find?_eq_some hfind)⟩

/-- So it is no statement of its own. -/
theorem statementOf?_subject (ht : t.Linked) {call : Node} {parts : ReplaceCall}
    (hcall : Slots.Holds t.slots call) (hparts : ofCall? call = some parts) :
    Fix.statementOf? t parts.subject.id = none := by
  obtain ⟨list, hunder, hkind, -⟩ := exists_under_of_subject ht hcall hparts
  rw [Fix.statementOf?, show t.parent? parts.subject.id = some list from hunder,
    Option.filter_some, hkind]
  rfl

/-- What a fix of the rule replaces stands below the node it was found at. -/
theorem nonempty_rowBefore (ht : ctx.tree.Sound) (hnode : ctx.tree.Within node ctx.tree.root)
    (h : f ∈ rule.check ctx node) (hfix : f.fix = some fix) (hroot : fix.target ≠ ctx.tree.root) :
    Nonempty (ctx.tree.RowBefore (fix.dropped ctx.tree) fix.target) := by
  have hl := ht.linked
  have hholds := hl.holds_node (hnode.lt_size ht.root_lt_size)
  have hbelow : ∀ m ∈ (ctx.tree.node node).preorder, ctx.tree.Within m.id ctx.tree.root :=
    fun m hm => (hl.within_of_mem_preorder_node hm).trans hnode
  rcases fix_of_mem_check h hfix with ⟨c, rfl⟩ | ⟨call, parts, hcall, hparts, hfix⟩
  · cases hstatement : Fix.statementOf? ctx.tree c.earlierCall.id with
    | none =>
      have hdropped : (mergeFix ctx c.laterCall.id c.earlierCall.id).dropped ctx.tree = [] := by
        rw [mergeFix, Fix.dropped, Tree.handle, hstatement]
      rw [hdropped]
      exact hl.nonempty_rowBefore_nil ((c.laterCall_within hl).trans hnode) hroot
    | some statement =>
      obtain rfl := c.eq_previous_of_statementOf? hl hstatement
      have hdropped : (mergeFix ctx c.laterCall.id c.earlierCall.id).dropped ctx.tree =
          c.previous :: ((ctx.tree.next? c.previous).filter
            (ctx.tree.kind · == .whitespace)).toList := by
        rw [mergeFix, Fix.dropped, Tree.handle, hstatement]
      rw [hdropped]
      exact c.nonempty_rowBefore ht hnode
  · have hmem := mem_preorder_of_valueOf? hcall
    rcases hfix with ⟨-, rfl⟩ | ⟨literal, -, rfl⟩
    · have hdropped : (mergeFix ctx call.id parts.subject.id).dropped ctx.tree = [] := by
        rw [mergeFix, Fix.dropped, Tree.handle,
          statementOf?_subject hl (hholds.of_mem_preorder hmem) hparts]
      rw [hdropped]
      exact hl.nonempty_rowBefore_nil (hbelow call hmem) hroot
    · have hsearch : parts.search ∈ call.arguments := by simp [(arguments_of_ofCall? hparts).2]
      obtain ⟨list, hlist, hargument⟩ := Node.exists_child_of_mem_arguments hsearch
      have hpreorder := Node.mem_preorder_trans hmem (Node.mem_preorder_of_child hlist
        (Node.mem_preorder_of_child hargument (Node.mem_preorder_self _)))
      exact hl.nonempty_rowBefore_nil (hbelow parts.search hpreorder) hroot

end CascadeReplace

namespace Fix

variable {admits : Tree → NodeId → Prop} {grammar : Grammar} {t u : Tree} {o : Options}
  {classes : ClassLookup} {f : Finding} {fix : Fix} {applied : AppliedFix}

/-- Every text that is planned is read as a node with that text. -/
def ReadsBack (grammar : Grammar) (t : Tree) (fix : Fix) : Prop :=
  ∀ plan, fix.plan t = .ok plan → ∀ target kind text, .replace target kind text ∈ plan.edits →
    ∀ fragment, Fragment.parse grammar text kind = .ok fragment →
      fragment.tree.textOf fragment.node = text

/-- A fix that was offered for the tree and is carried out there puts one text in place of its
target's and takes out the text of the nodes that it drops, at the places where these stood in the
tree as it was. Before, between and behind, the text stays what it was. -/
theorem text_of_apply (hrun : Tree.Run admits t) (hf : f ∈ (Analysis.new o).findings t classes)
    (hfix : f.fix = some fix) (happly : fix.apply grammar t = .ok (u, applied))
    (hreads : fix.ReadsBack grammar t) : ∃ text before between behind,
      fix.plan t = .ok ⟨fix.name,
        .replace fix.target .expression text :: (fix.dropped t).reverse.map .delete⟩ ∧
      t.text = before ++ String.join ((fix.dropped t).map t.textOf) ++ between
        ++ t.textOf fix.target ++ behind ∧
      u.text = before ++ between ++ text ++ behind ∧
      t.offset fix.target =
        (before ++ String.join ((fix.dropped t).map t.textOf) ++ between).utf8ByteSize ∧
      ∀ front d rest, fix.dropped t = front ++ d :: rest →
        t.offset d = (before ++ String.join (front.map t.textOf)).utf8ByteSize := by
  have ht := hrun.sound
  obtain ⟨node, hnode, r, hr, hcheck⟩ := Analysis.exists_check_of_mem_findings hf
  have hcascade := mem_cascade_of_fix hr hcheck hfix
  have hwithin : t.Within node t.root :=
    (ht.linked.mem_preorder ht.root_lt_size).1 (List.mem_of_mem_filter hnode)
  rw [apply] at happly
  split at happly
  next => cases happly
  next plan hplan =>
    obtain ⟨text, rfl⟩ := exists_plan_eq hplan
    have hedits := EditPlan.foldlM_of_apply happly
    have hu := ((Edit.later_of_foldlM hedits).sound_and_kept ht).1
    obtain ⟨staged, hreplace, -⟩ := exists_of_bind_eq_ok hedits
    obtain ⟨b⟩ := CascadeReplace.nonempty_rowBefore ht hwithin hcascade hfix
      (Edit.ne_root_of_replace ht hreplace)
    have hattached : ∀ d ∈ (fix.dropped t).reverse, t.isAttached d = true := fun d hd => by
      have hunder := ht.linked.mem_children.1
        (b.mem_children (.inr (.inl (List.mem_reverse.1 hd))))
      exact (ht.isAttached_of_within (.trans (.of_under hunder) b.within_root)).trans
        ht.isAttached_root
    obtain ⟨fragment, copy, hparse, hrecast, htext⟩ :=
      Edit.recast_of_replace_and_deletes ht hattached hedits
    have hsame : Tree.substitute fix.target copy (fix.dropped t).reverse =
        Tree.substitute fix.target copy (fix.dropped t) := by
      funext c
      simp [Tree.substitute]
    obtain ⟨before, between, behind, hold, hnew, hplace, hplaces⟩ :=
      b.exists_cuts ht hu (hsame ▸ hrecast) (EditPlan.defect?_of_apply happly)
    rw [htext, hreads _ hplan _ _ _ List.mem_cons_self fragment hparse] at hnew
    exact ⟨text, before, between, behind, hplan, hold, hnew, hplace, hplaces⟩

open CascadeReplace ReplaceCall

/-- `$x=str_replace('a','b',$s);` and `$x=str_replace('c','d',$x);`, a line each. -/
def twoLines : Tree :=
  .ofEvents (.start .sourceFile ::
    assignEvents .eq "=" (callEvents [wordEvents "\x27a\x27",
      wordEvents "\x27b\x27", subjectEvents]) ++ .token .whitespace "\n" ::
    assignEvents .eq "=" (callEvents [wordEvents "\x27c\x27",
      wordEvents "\x27d\x27", leafEvents .variableExpr .varName "$x"]) ++ [.finish])

def mergeLines : Fix := .mergeCalls ⟨37, 0⟩ ⟨16, 0⟩ false

/-- The first line goes, its end included, and the call in the second does the work of both. -/
theorem text_of_apply_mergeLines : ∃ u applied,
    mergeLines.apply mergedGrammar twoLines = .ok (u, applied) ∧
    twoLines.text = "$x=str_replace(\x27a\x27,\x27b\x27,$s);\n" ++
      "$x=str_replace(\x27c\x27,\x27d\x27,$x);" ∧
    ∃ text before between behind,
      mergeLines.plan twoLines = .ok ⟨mergeLines.name,
        .replace mergeLines.target .expression text ::
          (mergeLines.dropped twoLines).reverse.map .delete⟩ ∧
      twoLines.text = before ++ String.join ((mergeLines.dropped twoLines).map twoLines.textOf)
        ++ between ++ twoLines.textOf mergeLines.target ++ behind ∧
      u.text = before ++ between ++ text ++ behind := by
  have hrun : Tree.Run (fun _ _ => True) twoLines := .built _
  have hfound : (((Analysis.new .standard).findings twoLines .unknown).any
      (·.fix == some mergeLines)) = true := by decide +kernel
  have happly : (mergeLines.apply mergedGrammar twoLines).toOption.isSome = true :=
    by decide +kernel
  have hreads : ((mergeLines.plan twoLines).toOption.all fun plan => plan.edits.all fun
      | .replace _ kind text =>
        ((Fragment.parse mergedGrammar text kind).toOption.all fun fragment =>
          fragment.tree.textOf fragment.node == text)
      | _ => true) = true := by decide +kernel
  obtain ⟨f, hf, hfix⟩ := List.any_eq_true.1 hfound
  obtain ⟨⟨u, applied⟩, hdone⟩ := exists_of_toOption happly
  obtain ⟨text, before, between, behind, hplan, hold, hnew, -, -⟩ :=
    text_of_apply hrun hf (eq_of_beq hfix) hdone
      fun plan hplan target kind text hmem fragment hparse => by
      rw [hplan] at hreads
      have hedit := List.all_eq_true.1 hreads _ hmem
      dsimp only at hedit
      rw [hparse] at hedit
      exact eq_of_beq hedit
  exact ⟨u, applied, hdone, by decide +kernel, text, before, between, behind, hplan, hold, hnew⟩

end Fix

end PhpLint
