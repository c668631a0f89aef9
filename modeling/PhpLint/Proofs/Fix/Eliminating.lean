import PhpLint.Proofs.Fix.Applicable
import PhpLint.Proofs.Fix.Detaching

/-! Whether the call that is merged into another one goes. The rule sees through parentheses when it
looks for the two calls, but the statement of the earlier one is looked for right above it. So in
parentheses of its own that call is left behind, to be merged once more by the next round; anywhere
else it goes for good. -/

namespace PhpLint

namespace Tree

variable {t : Tree} {x : NodeId}

/-- The node stands in parentheses of its own. -/
def IsWrapped (t : Tree) (x : NodeId) : Prop := ∃ p, t.Under x p ∧ t.kind p = .parenExpr

theorem not_isWrapped_of_under {p : NodeId} (hunder : t.Under x p) (hkind : t.kind p ≠ .parenExpr) :
    ¬ t.IsWrapped x := by
  rintro ⟨q, hq, hparen⟩
  exact hkind (hunder.parent_unique hq ▸ hparen)

theorem IsWrapped.statementOf?_eq_none (h : t.IsWrapped x) : Fix.statementOf? t x = none := by
  obtain ⟨p, hunder, hparen⟩ := h
  rw [Fix.statementOf?, show t.parent? x = some p from hunder, Option.filter_some, hparen]
  rfl

/-- What is found in parentheses is wrapped. -/
theorem Linked.isWrapped_unparenthesized (h : t.Linked) {a : Node} (ha : Slots.Holds t.slots a)
    (hne : a.unparenthesized ≠ a) : t.IsWrapped a.unparenthesized.id := by
  fun_induction Node.unparenthesized a with
  | case1 a hkind inner hinner ih =>
    have hmem := Node.mem_children_of_operand? hinner
    by_cases hself : inner.unparenthesized = inner
    · rw [hself]
      exact ⟨a.id, h.under_of_mem ha hmem, (kind_of_holds ha).trans hkind⟩
    · exact ih (ha.of_mem hmem) hself
  | case2 a hkind hnone => exact absurd rfl hne
  | case3 a hkind => exact absurd rfl hne

/-- The calls of the tree that can be merged. -/
def replaceCalls (t : Tree) : List NodeId :=
  (t.preorder t.root).filter fun id => ReplaceCall.isReplaceCall (t.node id)

end Tree

namespace CascadeReplace

open ReplaceCall

variable {t : Tree} {node : NodeId}

namespace Cascade

/-- Without parentheses of its own the earlier call is the value of the assignment that the statement
before consists of. -/
theorem statementOf?_eq (c : Cascade t node) (ht : t.Linked)
    (hwrapped : ¬ t.IsWrapped c.earlierCall.id) :
    Fix.statementOf? t c.earlierCall.id = some c.previous := by
  obtain ⟨-, value, hvalue, hcall⟩ := exists_value_of_valueOf? c.earlierCall_eq c.assignment_kind
  rw [Node.value?, if_pos c.assignment_kind] at hvalue
  have hmem := (List.mem_filter.1 (List.mem_of_getElem? hvalue)).1
  have hself : c.earlierCall = value := by
    by_contra hne
    refine hwrapped (hcall ▸ ht.isWrapped_unparenthesized ((c.assignment_holds ht).of_mem hmem) ?_)
    rw [hcall]
    exact hne
  have hparent : t.parent? c.earlierCall.id = some c.assignment.id :=
    hself ▸ ht.under_of_mem (c.assignment_holds ht) hmem
  have hkind : t.kind c.assignment.id = .assignExpr :=
    (Tree.kind_of_holds (c.assignment_holds ht)).trans c.assignment_kind
  have hparent' : t.parent? c.assignment.id = some c.previous := c.assignment_under ht
  rw [Fix.statementOf?, hparent, Option.filter_some, hkind, beq_self_eq_true, if_pos rfl,
    Option.bind_some, hparent', Option.filter_some, c.previous_kind, beq_self_eq_true, if_pos rfl]

/-- The two calls stand in two statements. -/
theorem earlierCall_not_within (c : Cascade t node) (ht : t.Sound)
    (hnode : t.Within node t.root) : ¬ t.Within c.earlierCall.id c.laterCall.id := fun hw => by
  obtain ⟨b⟩ := c.nonempty_rowBefore ht hnode
  have hrow := b.under_of_mem_row ht.linked List.mem_cons_self
  have hne := b.ne_sibling ht.linked (.inr (.inl List.mem_cons_self))
  exact ht.linked.not_within_of_sibling hrow (b.under_sibling ht.linked) hne
    (c.earlierCall_within ht.linked) (hw.trans b.within_sibling)

end Cascade

end CascadeReplace

namespace Fix

open CascadeReplace ReplaceCall

variable {admits : Tree → NodeId → Prop} {grammar : Grammar} {t u : Tree} {o : Options}
  {classes : ClassLookup} {f : Finding} {fix : Fix} {patch eliminate : Handle} {short : Bool}
  {x : NodeId} {text : String}

/-! Rounds of fixing are plans one after another. -/

theorem leads_of_apply {applied : AppliedFix} (h : fix.apply grammar t = .ok (u, applied)) :
    EditPlan.Leads grammar t u := by
  rw [apply] at h
  split at h
  next => cases h
  next plan _ => exact .single ⟨plan, applied, h⟩

theorem leads_applyAll (grammar : Grammar) (t : Tree) (fixes : List Fix) :
    EditPlan.Leads grammar t (applyAll grammar t fixes).1 := by
  induction fixes generalizing t with
  | nil => exact .refl
  | cons fix fixes ih =>
    rw [applyAll]
    split
    next => exact ih t
    next u applied happly => exact (leads_of_apply happly).trans (ih u)

theorem leads_applyRounds (grammar : Grammar) (a : Analysis) (rounds : Nat) (t : Tree) :
    EditPlan.Leads grammar t (applyRounds grammar a rounds t).1 := by
  induction rounds generalizing t with
  | zero => exact .refl
  | succ rounds ih =>
    rw [applyRounds]
    dsimp only
    split
    · exact leads_applyAll grammar t _
    · exact (leads_applyAll grammar t _).trans (ih _)

/-! What is named by the fixes that are offered. -/

/-- Fixes are offered by one rule alone. -/
theorem exists_check_of_fix (ht : t.Sound) (hf : f ∈ (Analysis.new o).findings t classes)
    (hfix : f.fix = some fix) : ∃ (ctx : RuleContext) (node : NodeId), ctx.tree = t ∧
      t.Within node t.root ∧ f ∈ CascadeReplace.rule.check ctx node := by
  obtain ⟨node, hnode, rule, hrule, hcheck⟩ := Analysis.exists_check_of_mem_findings hf
  exact ⟨_, node, rfl, (ht.linked.mem_preorder ht.root_lt_size).1 (List.mem_of_mem_filter hnode),
    mem_cascade_of_fix hrule hcheck hfix⟩

theorem within_root_of_mem_handles (ht : t.Sound) (hf : f ∈ (Analysis.new o).findings t classes)
    (hfix : f.fix = some fix) : ∀ h ∈ fix.handles, t.Within h.id t.root := by
  obtain ⟨ctx, node, rfl, hnode, hcheck⟩ := exists_check_of_fix ht hf hfix
  intro h hh
  obtain ⟨id, rfl, hid⟩ := (handles_and_edits ht hnode hcheck hfix).1 h hh
  exact hid

theorem exists_planWith (ht : t.Sound) (hf : f ∈ (Analysis.new o).findings t classes)
    (hfix : f.fix = some fix) : ∃ text, fix.plan t = .ok (fix.planWith t text) := by
  obtain ⟨ctx, node, rfl, hnode, hcheck⟩ := exists_check_of_fix ht hf hfix
  obtain ⟨plan, hplan⟩ := exists_plan ht hnode hcheck hfix
  obtain ⟨text, rfl⟩ := exists_plan_eq hplan
  exact ⟨text, hplan⟩

/-- The node is out of the tree and stays so: through the rest of a round and all rounds behind it,
and whichever plans are carried out. No tree that they lead to has it named by a fix of its own, and
a fix that names it is refused there. -/
structure GoneForGood (grammar : Grammar) (u : Tree) (x : NodeId) : Prop where
  detached : ∀ v, EditPlan.Leads grammar u v → v.isAttached x = false
  rounds : ∀ a n fixes,
    (applyRounds grammar a n (applyAll grammar u fixes).1).1.isAttached x = false
  not_offered : ∀ v, EditPlan.Leads grammar u v → ∀ o classes, ∀ f ∈ (Analysis.new o).findings v classes,
    ∀ fix, f.fix = some fix → ∀ h ∈ fix.handles, h.id ≠ x
  refused : ∀ v, EditPlan.Leads grammar u v → ∀ fix : Fix, ∀ h ∈ fix.handles, h.id = x →
    ∃ id, fix.apply grammar v = .error (.invalidated id)

theorem goneForGood (grammar : Grammar) (hu : u.Sound) (hx : x < u.size)
    (hout : u.isAttached x = false) : GoneForGood grammar u x := by
  have hdetached : ∀ v, EditPlan.Leads grammar u v → v.isAttached x = false :=
    fun v hv => hv.isAttached_eq_false hu hx hout
  refine ⟨hdetached, fun a n fixes => ?_, fun v hv o classes f hf fix hfix h hh hid => ?_,
    fun v hv fix h hh hid => ?_⟩
  · exact hdetached _ ((leads_applyAll grammar u fixes).trans (leads_applyRounds grammar a n _))
  · have hsound := (hv.later.sound_and_kept hu).1
    have hattached :=
      (hsound.isAttached_of_within (within_root_of_mem_handles hsound hf hfix h hh)).trans
        hsound.isAttached_root
    rw [hid, hdetached v hv] at hattached
    cases hattached
  · have hstale : v.isValid h = false := by rw [Tree.isValid, hid, hdetached v hv, Bool.false_and]
    obtain ⟨stale, -, -, happly⟩ := apply_of_stale grammar hh hstale
    exact ⟨stale.id, happly⟩

/-! Merges. -/

theorem detaches_planWith_iff : (fix.planWith t text).Detaches t x ↔
    t.Within x fix.target ∨ ∃ d ∈ fix.dropped t, t.Within x d := by
  simp [EditPlan.Detaches, planWith, Edit.removed?]

theorem delete_mem_planWith_iff : .delete x ∈ (fix.planWith t text).edits ↔ x ∈ fix.dropped t := by
  simp [planWith]

theorem dropped_of_statementOf?_eq_none (h : statementOf? t eliminate.id = none) :
    (mergeCalls patch eliminate short).dropped t = [] := by
  rw [dropped, h]

theorem mem_dropped_of_statementOf? (h : statementOf? t eliminate.id = some x) :
    x ∈ (mergeCalls patch eliminate short).dropped t := by
  rw [dropped, h]
  exact List.mem_cons_self

/-- What a merge names, and where: the earlier call in the statement before, or as the subject of the
later one. -/
theorem merge_cases (ht : t.Sound) (hf : f ∈ (Analysis.new o).findings t classes)
    (hfix : f.fix = some (.mergeCalls patch eliminate short)) :
    isReplaceCall (t.node patch.id) = true ∧ isReplaceCall (t.node eliminate.id) = true ∧
      patch.id ≠ eliminate.id ∧
      ((t.Within eliminate.id patch.id ∧ ¬ t.IsWrapped eliminate.id ∧
          statementOf? t eliminate.id = none) ∨
        ¬ t.Within eliminate.id patch.id ∧ ∃ previous, t.kind previous = .exprStmt ∧
          t.Within eliminate.id previous ∧
          (¬ t.IsWrapped eliminate.id → statementOf? t eliminate.id = some previous)) := by
  obtain ⟨ctx, node, rfl, hwithin, hcheck⟩ := exists_check_of_fix ht hf hfix
  have hl := ht.linked
  have hholds := hl.holds_node (hwithin.lt_size ht.root_lt_size)
  rcases fix_of_mem_check hcheck hfix with ⟨c, hmerge⟩ | ⟨call, parts, hcall, hparts, hmerge⟩
  · obtain ⟨rfl, rfl, -⟩ := Fix.mergeCalls.inj hmerge
    have hearlier := (c.assignment_holds hl).of_mem_preorder (mem_preorder_of_valueOf? c.earlierCall_eq)
    have hnot := c.earlierCall_not_within ht hwithin
    have hne : c.laterCall.id ≠ c.earlierCall.id := fun he => hnot (he ▸ .refl _ _)
    refine ⟨?_, ?_, hne, .inr ⟨hnot, c.previous, c.previous_kind, c.earlierCall_within hl,
      c.statementOf?_eq hl⟩⟩
    · rw [Tree.handle, hl.node_of_mem_preorder (mem_preorder_of_valueOf? c.laterCall_eq)]
      exact (Option.filter_eq_some_iff.1 c.laterCall_eq).2
    · rw [Tree.handle, hl.node_eq hearlier]
      exact (Option.filter_eq_some_iff.1 c.earlierCall_eq).2
  · rcases hmerge with ⟨hnested, hmerge⟩ | ⟨literal, -, hmerge⟩
    · obtain ⟨rfl, rfl, -⟩ := Fix.mergeCalls.inj hmerge
      have hcallHolds := hholds.of_mem_preorder (mem_preorder_of_valueOf? hcall)
      obtain ⟨list, hsubject, hlist, hlistCall⟩ := exists_under_of_subject hl hcallHolds hparts
      have hmember : parts.subject ∈ call.arguments := by simp [(arguments_of_ofCall? hparts).2]
      obtain ⟨l, hl', hmem⟩ := Node.exists_child_of_mem_arguments hmember
      have hne : call.id ≠ parts.subject.id := fun he =>
        hl.not_within_of_under hsubject (he ▸ .of_under hlistCall)
      refine ⟨?_, ?_, hne, .inl ⟨.trans (.of_under hsubject) (.of_under hlistCall), ?_, ?_⟩⟩
      · rw [Tree.handle, hl.node_of_mem_preorder (mem_preorder_of_valueOf? hcall)]
        exact (Option.filter_eq_some_iff.1 hcall).2
      · rw [Tree.handle, hl.node_eq ((hcallHolds.of_mem hl').of_mem hmem)]
        exact hnested
      · exact Tree.not_isWrapped_of_under hsubject (by rw [hlist]; decide)
      · exact statementOf?_subject hl hcallHolds hparts
    · cases hmerge

/-- The plan takes the earlier call out exactly where that call is not wrapped. -/
theorem within_or_delete_iff (ht : t.Sound) (hf : f ∈ (Analysis.new o).findings t classes)
    (hfix : f.fix = some (.mergeCalls patch eliminate short)) (text : String) :
    (t.Within eliminate.id patch.id ∨ ∃ statement,
        .delete statement ∈ ((mergeCalls patch eliminate short).planWith t text).edits ∧
          t.kind statement = .exprStmt ∧ t.Within eliminate.id statement) ↔
      ¬ t.IsWrapped eliminate.id := by
  obtain ⟨-, -, -, hcases⟩ := merge_cases ht hf hfix
  simp only [delete_mem_planWith_iff]
  rcases hcases with ⟨hwithin, hnot, -⟩ | ⟨hwithin, previous, hkind, hbelow, hstatement⟩
  · exact iff_of_true (.inl hwithin) hnot
  · refine ⟨?_, fun hnot => .inr ⟨previous, mem_dropped_of_statementOf? (hstatement hnot), hkind,
      hbelow⟩⟩
    rintro (hwithin' | ⟨statement, hdropped, -, -⟩) hwrapped
    · exact hwithin hwithin'
    · rw [dropped_of_statementOf?_eq_none hwrapped.statementOf?_eq_none] at hdropped
      cases hdropped

/-- Two entries of a list that do not pass make it shorter by two. -/
theorem length_filter_add_two_le {α : Type} {l : List α} {p : α → Bool} {a b : α} (ha : a ∈ l)
    (hb : b ∈ l) (hne : a ≠ b) (hpa : p a = false) (hpb : p b = false) :
    (l.filter p).length + 2 ≤ l.length := by
  have hsub : [a, b] ⊆ l.filter (!p ·) := by simp [ha, hb, hpa, hpb]
  have hle := (List.subperm_of_subset (by simp [hne]) hsub).length_le
  have hlength : l.length = (l.filter p).length + (l.filter (!p ·)).length := by
    simpa using List.length_eq_length_filter_add p (l := l)
  simp only [List.length_cons, List.length_nil] at hle
  omega

/-- A merge that is offered takes the earlier call out, within the later one or with its statement,
exactly where that call stands in no parentheses of its own. Carried out, it then takes two calls
out of the tree, both for good, and one text in their place. In parentheses of its own the earlier
call stays. -/
theorem merge_detaches_iff (grammar : Grammar) (hrun : Tree.Run admits t)
    (hf : f ∈ (Analysis.new o).findings t classes)
    (hfix : f.fix = some (.mergeCalls patch eliminate short)) :
    ∃ plan, (mergeCalls patch eliminate short).plan t = .ok plan ∧
      ((t.Within eliminate.id patch.id ∨ ∃ statement, .delete statement ∈ plan.edits ∧
          t.kind statement = .exprStmt ∧ t.Within eliminate.id statement) ↔
        ¬ t.IsWrapped eliminate.id) ∧
      ∀ u applied, plan.apply grammar t = .ok (u, applied) →
        GoneForGood grammar u patch.id ∧
        (t.IsWrapped eliminate.id → u.isAttached eliminate.id = true) ∧
        (¬ t.IsWrapped eliminate.id → GoneForGood grammar u eliminate.id ∧
          (t.replaceCalls.filter u.isAttached).length + 2 ≤ t.replaceCalls.length) := by
  have ht := hrun.sound
  have hroot := within_root_of_mem_handles ht hf hfix
  have hpatchRoot := hroot patch List.mem_cons_self
  have heliminateRoot := hroot eliminate (List.mem_cons_of_mem _ List.mem_cons_self)
  have hpatch := (ht.isAttached_of_within hpatchRoot).trans ht.isAttached_root
  have heliminate := (ht.isAttached_of_within heliminateRoot).trans ht.isAttached_root
  obtain ⟨text, hplan⟩ := exists_planWith ht hf hfix
  obtain ⟨hlaterCall, hearlierCall, hne, -⟩ := merge_cases ht hf hfix
  have hgoes := within_or_delete_iff ht hf hfix text
  refine ⟨_, hplan, hgoes, fun u applied happly => ?_⟩
  have hu := (Edit.later_of_foldlM (EditPlan.foldlM_of_apply happly)).sound_and_kept ht
  have hout : ∀ {x}, t.isAttached x = true → (u.isAttached x = false ↔
      t.Within x patch.id ∨ ∃ d ∈ (mergeCalls patch eliminate short).dropped t, t.Within x d) :=
    fun hx => (EditPlan.isAttached_eq_false_iff ht happly hx).trans detaches_planWith_iff
  have hgone : ∀ {x}, t.isAttached x = true → u.isAttached x = false → GoneForGood grammar u x :=
    fun hx hx' => goneForGood grammar hu.1 ((Tree.lt_size_of_isAttached hx).trans_le hu.2.size_le) hx'
  have hpatchOut := (hout hpatch).2 (.inl (.refl t patch.id))
  refine ⟨hgone hpatch hpatchOut, fun hwrapped => ?_, fun hnot => ?_⟩
  · rw [← Bool.not_eq_false, hout heliminate,
      dropped_of_statementOf?_eq_none hwrapped.statementOf?_eq_none]
    rintro (hwithin | ⟨d, hd, -⟩)
    · exact hgoes.1 (.inl hwithin) hwrapped
    · cases hd
  · have heliminateOut : u.isAttached eliminate.id = false := by
      rw [hout heliminate]
      refine (hgoes.2 hnot).imp_right fun ⟨statement, hdelete, _, hbelow⟩ => ⟨statement, ?_, hbelow⟩
      exact delete_mem_planWith_iff.1 hdelete
    have hcalls : ∀ {x}, t.Within x t.root → isReplaceCall (t.node x) = true → x ∈ t.replaceCalls :=
      fun hx hcall => List.mem_filter.2 ⟨(ht.linked.mem_preorder ht.root_lt_size).2 hx, hcall⟩
    exact ⟨hgone heliminate heliminateOut, length_filter_add_two_le (hcalls hpatchRoot hlaterCall)
      (hcalls heliminateRoot hearlierCall) hne hpatchOut heliminateOut⟩

/-- Of the two lines both calls are gone for good. -/
theorem merge_detaches_mergeLines : ∃ u applied,
    mergeLines.apply mergedGrammar twoLines = .ok (u, applied) ∧
      GoneForGood mergedGrammar u 37 ∧ GoneForGood mergedGrammar u 16 ∧
      (twoLines.replaceCalls.filter u.isAttached).length + 2 ≤ twoLines.replaceCalls.length := by
  have hrun : Tree.Run (fun _ _ => True) twoLines := .built _
  have hfound : (((Analysis.new .standard).findings twoLines .unknown).any
      (·.fix == some mergeLines)) = true := by decide +kernel
  have happly : (mergeLines.apply mergedGrammar twoLines).toOption.isSome = true := by
    decide +kernel
  have hunwrapped : ¬ twoLines.IsWrapped 16 :=
    Tree.not_isWrapped_of_under (p := 17) (by rw [Tree.Under]; decide +kernel) (by decide +kernel)
  obtain ⟨f, hf, hfix⟩ := List.any_eq_true.1 hfound
  obtain ⟨⟨u, applied⟩, hdone⟩ := exists_of_toOption happly
  obtain ⟨plan, hplan, -, hcarried⟩ :=
    merge_detaches_iff mergedGrammar hrun hf (eq_of_beq hfix)
  have hdone' : plan.apply mergedGrammar twoLines = .ok (u, applied) := by
    rw [apply, mergeLines, hplan] at hdone
    exact hdone
  obtain ⟨hpatch, -, hgone⟩ := hcarried u applied hdone'
  exact ⟨u, applied, hdone, hpatch, hgone hunwrapped⟩

/-- `$x=(str_replace('a','b',$x));` and `$x=str_replace('c','d',$x);`. -/
def wrappedLines : Tree :=
  .ofEvents (.start .sourceFile ::
    assignEvents .eq "=" (.start .parenExpr :: .token .lParen "(" ::
      callEvents [wordEvents "\x27a\x27", wordEvents "\x27b\x27",
        leafEvents .variableExpr .varName "$x"] ++ [.token .rParen ")", .finish]) ++
    assignEvents .eq "=" (callEvents [wordEvents "\x27c\x27", wordEvents "\x27d\x27",
      leafEvents .variableExpr .varName "$x"]) ++ [.finish])

def mergeWrapped : Fix := .mergeCalls ⟨39, 0⟩ ⟨17, 0⟩ false

def mergedBackGrammar : Grammar := fun source =>
  if source = "<?php str_replace(array(\x27a\x27, \x27c\x27), array(\x27b\x27, \x27d\x27), $x);"
  then some mergedPiece else none

/-- The call in parentheses is merged and stays, its statement with it, and the tree that this leaves
has it merged into the merged call. -/
theorem exists_merged_call_left :
    Tree.Run (fun _ _ => True) wrappedLines ∧ wrappedLines.IsWrapped 17 ∧
      (∃ f ∈ (Analysis.new .standard).findings wrappedLines .unknown, f.fix = some mergeWrapped) ∧
      mergeWrapped.plan wrappedLines = .ok ⟨mergeWrapped.name, [.replace 39 .expression
        "str_replace(array(\x27a\x27, \x27c\x27), array(\x27b\x27, \x27d\x27), $x)"]⟩ ∧
      ∃ u applied, mergeWrapped.apply mergedBackGrammar wrappedLines = .ok (u, applied) ∧
        u.isAttached 17 = true ∧
        ∃ f ∈ (Analysis.new .standard).findings u .unknown, ∃ patch,
          f.fix = some (.mergeCalls patch ⟨17, 0⟩ false) := by
  have hfound : (((Analysis.new .standard).findings wrappedLines .unknown).any
      (·.fix == some mergeWrapped)) = true := by decide +kernel
  have hleft : ((mergeWrapped.apply mergedBackGrammar wrappedLines).toOption.any fun result =>
      result.1.isAttached 17 && ((Analysis.new .standard).findings result.1 .unknown).any
        (·.fix == some (.mergeCalls ⟨79, 1⟩ ⟨17, 0⟩ false))) = true := by decide +kernel
  obtain ⟨f, hf, hfix⟩ := List.any_eq_true.1 hfound
  refine ⟨.built _, ⟨19, by rw [Tree.Under]; decide +kernel, by decide +kernel⟩,
    ⟨f, hf, eq_of_beq hfix⟩, by decide +kernel, ?_⟩
  cases hdone : mergeWrapped.apply mergedBackGrammar wrappedLines with
  | error e =>
    rw [hdone] at hleft
    cases hleft
  | ok result =>
    obtain ⟨u, applied⟩ := result
    rw [hdone, Except.toOption, Option.any_some, Bool.and_eq_true] at hleft
    obtain ⟨hattached, hagain⟩ := hleft
    obtain ⟨f', hf', hfix'⟩ := List.any_eq_true.1 hagain
    exact ⟨u, applied, rfl, hattached, f', hf', ⟨79, 1⟩, eq_of_beq hfix'⟩

end Fix

end PhpLint
