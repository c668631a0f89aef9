import PhpLint.Analysis
import PhpLint.Proofs.Spacing.Conditions
import PhpLint.Proofs.Tree.Building

/-! White space and comments do not change what is found in a file, with one exception: a comment
within the fetch of a property hides that another term reads the same property. -/

namespace PhpLint.Spacing

variable {s : Spacing} {n n' : Node} {x x' : NodeId} (o : Options) (classes : ClassLookup)

/-! Replacements in a row. -/

namespace Cascade

open CascadeReplace

theorem statement? (h : s.At x x') :
    Option.Rel s.At (CascadeReplace.statement? s.before x)
      (CascadeReplace.statement? s.after x') := by
  rw [CascadeReplace.statement?, CascadeReplace.statement?, h.kind_eq]
  split
  · exact .some h
  · exact h.parent?.filter fun hp => by rw [hp.kind_eq]

theorem previousAssignment? (h : s.At x x') :
    Option.Rel s.Twins (CascadeReplace.previousAssignment? s.before x)
      (CascadeReplace.previousAssignment? s.after x') :=
  (statement? h).bind fun hstatement =>
    (hstatement.previousStatement?.filter fun hp => by rw [hp.kind_eq]).bind fun hp =>
      hp.twins.childNodes.head?.filter fun hc => hc.beq_kind _

theorem cascadedCall? (h : s.At x x') (hn : s.Twins n n') :
    Option.Rel s.Twins (CascadeReplace.cascadedCall? s.before x n)
      (CascadeReplace.cascadedCall? s.after x' n') := by
  rw [CascadeReplace.cascadedCall?, CascadeReplace.cascadedCall?]
  refine (previousAssignment? h).bind fun hprevious => hprevious.valueOf?.bind fun hcall =>
    hprevious.target?.bind fun {transition transition'} htransition => ?_
  have hstored : ∀ {storage storage'}, s.Twins storage storage' →
      Option.Rel s.Twins (if s.before.equivalent transition.id storage.id then some _ else none)
        (if s.after.equivalent transition'.id storage'.id then some _ else none) :=
    fun hstorage => by
      rw [equivalent_eq htransition.at_id hstorage.at_id]
      split
      · exact .some hcall
      · exact .none
  rw [htransition.variableName?_eq, hn.variableName?_eq]
  cases transition'.variableName? with
  | none => exact .none
  | some name =>
    cases n'.variableName? with
    | none => exact .none
    | some subjectName =>
      simp only [Option.bind_eq_bind, Option.bind_some]
      split
      · exact .none
      · rw [h.kind_eq]
        split
        · exact h.twins.target?.bind hstored
        · exact hstored hn

theorem reports_withFix (h : s.At x x') (rule message : String) (severity : Severity)
    {fix fix' : Fix} (hname : fix.name = fix'.name)
    (hhandles : List.Forall₂ (fun a a' => s.At a.id a'.id) fix.handles fix'.handles) :
    s.Reports ((Finding.anchored s.before rule x message severity).withFix fix)
      ((Finding.anchored s.after rule x' message severity).withFix fix') :=
  ⟨rfl, h, rfl, rfl, .some ⟨hname, hhandles⟩⟩

theorem findings (h : s.At x x') (hn : s.Twins n n') {parts parts' : ReplaceCall}
    (hsearch : s.Twins parts.search parts'.search)
    (hsubject : s.Twins parts.subject parts'.subject) :
    List.Forall₂ s.Reports (CascadeReplace.findings (s.contextBefore o classes) x n parts)
      (CascadeReplace.findings (s.contextAfter o classes) x' n' parts') := by
  have hmerge : ∀ {m m'}, s.Twins m m' → ∀ {anchor anchor'}, s.At anchor anchor' →
      ∀ message, s.Reports
        ((Finding.anchored s.before CascadeReplace.id anchor message .warning).withFix
          (mergeFix (s.contextBefore o classes) n.id m.id))
        ((Finding.anchored s.after CascadeReplace.id anchor' message .warning).withFix
          (mergeFix (s.contextAfter o classes) n'.id m'.id)) := fun hm _ _ hanchor message =>
    reports_withFix hanchor _ _ _ rfl (.cons hn.at_id (.cons hm.at_id .nil))
  refine List.rel_append (List.rel_append ?_ ?_) ?_
  · exact (cascadedCall? h hsubject).toList.map_of fun hprevious => hmerge hprevious hn.at_id _
  · rw [hsubject.isReplaceCall_eq]
    exact Conditions.reports_if (.cons (hmerge hsubject hsubject.at_id _) .nil)
  · rw [hsearch.repeatedLiteral?_eq]
    refine List.Forall₂.map_of (R := Eq) (List.forall₂_refl _) fun hliteral => ?_
    exact reports_withFix hsearch.at_id _ _ _ rfl (.cons hsearch.at_id .nil)

theorem check (h : s.At x x') :
    List.Forall₂ s.Reports (CascadeReplace.rule.check (s.contextBefore o classes) x)
      (CascadeReplace.rule.check (s.contextAfter o classes) x') := by
  rcases h.twins.valueOf?.eq_or with ⟨hc, hc'⟩ | ⟨call, call', hc, hc', hcall⟩
  · simp only [CascadeReplace.rule, contextBefore, contextAfter, hc, hc']
    exact .nil
  · rcases hcall.ofCall?.eq_or with ⟨hp, hp'⟩ | ⟨parts, parts', hp, hp', hsearch, -, hsubject⟩
    · simp only [CascadeReplace.rule, contextBefore, contextAfter, hc, hc', hp, hp']
      exact .nil
    · have hfindings := findings o classes h hcall hsearch hsubject
      simpa only [CascadeReplace.rule, contextBefore, contextAfter, hc, hc', hp, hp'] using hfindings

end Cascade

/-! Arrays merged in a loop. -/

namespace Accumulation

open LoopAccumulation

theorem user? (h : s.At x x') :
    Option.Rel s.At (LoopAccumulation.user? s.before x) (LoopAccumulation.user? s.after x') :=
  h.parent?.bind fun {p p'} hp => by
    rw [hp.kind_eq]
    split
    · exact hp.parent?
    · exact .some hp

theorem isRepeatedStatement_eq (h : s.At x x') :
    isRepeatedStatement s.before x = isRepeatedStatement s.after x' := by
  rw [isRepeatedStatement, isRepeatedStatement, h.kind_eq]
  congr 1
  refine (h.parent?.filter fun hp => by rw [hp.kind_eq]).any_eq fun hstatement => ?_
  refine (hstatement.parent?.filter fun hp => by rw [hp.kind_eq]).any_eq fun hblock => ?_
  rw [hblock.twins.statements.getLast?.any_eq fun hlast => by rw [hlast.kind_eq]]

theorem isInsideLoop_eq (h : s.At x x') : isInsideLoop s.before x = isInsideLoop s.after x' :=
  h.localAncestors.any_eq fun ha => by rw [ha.kind_eq]

theorem isSelfAccumulation_eq (h : s.At x x') {y y' : NodeId} (hy : s.At y y') :
    isSelfAccumulation s.before x y = isSelfAccumulation s.after x' y' :=
  h.twins.target?.any_eq fun htarget => hy.twins.arguments.any_eq fun hargument =>
    equivalent_eq htarget.at_id hargument.at_id

theorem flags_eq (h : s.At x x') : flags s.before x = flags s.after x' := by
  rw [flags, flags, h.twins.isCallTo_eq]
  congr 1
  exact (user? h).any_eq fun huser => by
    rw [isRepeatedStatement_eq huser, isInsideLoop_eq huser, huser.kind_eq,
      isSelfAccumulation_eq huser h]

theorem check (h : s.At x x') :
    List.Forall₂ s.Reports (LoopAccumulation.rule.check (s.contextBefore o classes) x)
      (LoopAccumulation.rule.check (s.contextAfter o classes) x') := by
  simp only [LoopAccumulation.rule, contextBefore, contextAfter, flags_eq h,
    h.twins.calleeName?_eq]
  exact Conditions.reports_if (.cons (reports_anchored h ..) .nil)

end Accumulation

/-! Unused mocks. -/

namespace Mock

open UnusedMock

theorem isTestContext_eq (h : s.At x x') : isTestContext s.before x = isTestContext s.after x' := by
  rw [isTestContext, isTestContext]
  congr 1
  · exact h.enclosingClass?.any_eq fun hc => by
      rw [hc.twins.declaredName?_eq, hc.twins.extendsNames_eq]
  · exact (h.enclosingFunction?.filter fun hm => by rw [hm.kind_eq]).any_eq fun hm => by
      rw [hm.twins.declaredName?_eq]

theorem isRealUse_eq (h : s.At x x') : isRealUse s.before x = isRealUse s.after x' := by
  rw [isRealUse, isRealUse]
  rcases h.parent?.eq_or with ⟨hp, hp'⟩ | ⟨p, p', hp, hp', hat⟩
  · rw [hp, hp']
  · have hreceiver : ((s.before.node p).receiver?.any (·.id == x)) =
        ((s.after.node p').receiver?.any (·.id == x')) :=
      hat.twins.receiver?.any_eq fun hr => by
        have hid := hr.id_beq h.twins
        rwa [Tree.id_node, Tree.id_node] at hid
    rw [hp, hp']
    dsimp only
    rw [hat.twins.kind_eq, hreceiver, hat.twins.calleeName?_eq]

theorem container? (h : s.At x x') :
    Option.Rel s.Twins (UnusedMock.container? s.before x) (UnusedMock.container? s.after x') :=
  (h.parent?.filter fun hp => by rw [hp.kind_eq]).bind fun {p p'} hp => by
    rw [hp.parent?.any_eq fun hq => by rw [hq.kind_eq]]
    split
    · exact hp.twins.target?.filter fun hc => hc.beq_kind _
    · exact .none

theorem body? (h : s.At x x') :
    Option.Rel s.Twins (UnusedMock.body? s.before x) (UnusedMock.body? s.after x') :=
  (h.enclosingFunction?.bind fun hf => hf.twins.functionBody?).filter fun hc => hc.beq_kind _

theorem isUsed_eq {body body' : Node} (h : s.Twins body body') (hn : s.Twins n n') (name : String) :
    isUsed s.before body n name = isUsed s.after body' n' name :=
  (h.variableReferences name).any_eq fun hv => by
    rw [bne, bne, hv.id_beq hn, isRealUse_eq hv.at_id]

theorem check (h : s.At x x') :
    List.Forall₂ s.Reports (UnusedMock.rule.check (s.contextBefore o classes) x)
      (UnusedMock.rule.check (s.contextAfter o classes) x') := by
  simp only [UnusedMock.rule, contextBefore, contextAfter, h.twins.calleeName?_eq,
    isTestContext_eq h]
  refine Conditions.reports_if ?_
  rcases (container? h).eq_or with ⟨hc, hc'⟩ | ⟨c, c', hc, hc', hcontainer⟩
  · rw [hc, hc']
    exact .nil
  · rcases (body? h).eq_or with ⟨hb, hb'⟩ | ⟨b, b', hb, hb', hbody⟩
    · rw [hc, hc', hb, hb']
      exact .nil
    · rw [hc, hc', hb, hb']
      dsimp only
      rw [hcontainer.variableName?_eq]
      cases c'.variableName? with
      | none => exact .nil
      | some name =>
        dsimp only
        rw [isUsed_eq hbody hcontainer]
        split
        · exact .nil
        · exact .cons (reports_anchored hcontainer.at_id ..) .nil

end Mock

/-- Every rule says the same of twins. -/
theorem check_shipped {r : Rule} (hr : r ∈ Rule.shipped) (h : s.At x x') :
    List.Forall₂ s.Reports (r.check (s.contextBefore o classes) x)
      (r.check (s.contextAfter o classes) x') := by
  simp only [Rule.shipped, List.mem_cons, List.not_mem_nil, or_false] at hr
  rcases hr with rfl | rfl | rfl | rfl
  · exact Accumulation.check o classes h
  · exact Cascade.check o classes h
  · exact check_ifConditions h o classes
  · exact Mock.check o classes h

theorem visit (h : s.At x x') :
    List.Forall₂ s.Reports ((Analysis.new o).visit s.before classes x)
      ((Analysis.new o).visit s.after classes x') := by
  rw [Analysis.visit, Analysis.visit, h.kind_eq]
  refine List.Forall₂.flatMap_of (R := Eq) (List.forall₂_refl _) fun {i j} hij => ?_
  cases hij
  cases hrule : (Analysis.new o).rules[i]? with
  | none => exact .nil
  | some r =>
    have hr : r ∈ Rule.shipped.filter fun r => o.isEnabled r.id := List.mem_of_getElem? hrule
    exact check_shipped o classes (List.mem_of_mem_filter hr) h

/-- White space, and comments that are not within the fetch of a property, change no finding: the
same rules report the same about the same nodes, in the same order. -/
theorem reports_findings (s : Spacing) (o : Options) :
    List.Forall₂ s.Reports
      ((Analysis.new o).findings s.before (Hierarchy.ofTree s.before).lookup)
      ((Analysis.new o).findings s.after (Hierarchy.ofTree s.after).lookup) := by
  rw [s.ofTree_eq]
  exact (At.descendants s).flatMap_of fun hx => visit o _ hx

/-! A call, and behind it the fetch of a property with or without something before its arrow. -/

open BuildEvent in
/-- `$object->a` -/
def fetchEvents (object : String) (gap : List BuildEvent) : List BuildEvent :=
  [start .propertyFetch, start .variableExpr, token .varName object, finish] ++ gap
    ++ [token .arrow "->", start .nameRef, token .ident "a", finish, finish]

open BuildEvent in
/-- `if (foo($this->a) && $object->a) {}` -/
def callAndFetch (object : String) (gap : List BuildEvent) : Tree :=
  .ofEvents ([start .sourceFile, start .ifStmt, start .binaryExpr, start .callExpr, start .nameRef,
    token .ident "foo", finish, start .argList] ++ fetchEvents "$this" []
    ++ [finish, finish, token .amp2 "&&"] ++ fetchEvents object gap
    ++ [finish, start .block, finish, finish, finish])

/-- The names once one token is put in. -/
def nameBehindGap (id : NodeId) : NodeId := if id < 13 then id else id + 1

def fetchNode (name : NodeId → NodeId) (object : String) (gap : List Node) (id : NodeId) : Node :=
  ⟨name (id + 5), .propertyFetch, none,
    [⟨name (id + 1), .variableExpr, none, [⟨name id, .varName, some object, []⟩]⟩] ++ gap
      ++ [⟨name (id + 2), .arrow, some "->", []⟩,
        ⟨name (id + 4), .nameRef, none, [⟨name (id + 3), .ident, some "a", []⟩]⟩]⟩

def callAndFetchNode (name : NodeId → NodeId) (object : String) (gap : List Node) : Node :=
  ⟨name 20, .sourceFile, none, [⟨name 19, .ifStmt, none, [
    ⟨name 17, .binaryExpr, none, [
      ⟨name 9, .callExpr, none, [⟨name 1, .nameRef, none, [⟨name 0, .ident, some "foo", []⟩]⟩,
        ⟨name 8, .argList, none, [fetchNode name "$this" [] 2]⟩]⟩,
      ⟨name 10, .amp2, some "&&", []⟩, fetchNode name object gap 11]⟩,
    ⟨name 18, .block, none, []⟩]⟩]⟩

variable {guarded : Kind → Bool} {name : NodeId → NodeId} {comments : Bool} {gap : List Node}

theorem spaced_fetchNode (object : String) (node : NodeId)
    (hgap : ∀ {cs cs'}, Node.SpacedAll guarded name (comments && !guarded .propertyFetch) cs cs' →
      Node.SpacedAll guarded name (comments && !guarded .propertyFetch) cs (gap ++ cs')) :
    Node.Spaced guarded name comments (fetchNode id object [] node)
      (fetchNode name object gap node) := by
  have hproperty : Node.Spaced guarded name (comments && !guarded .propertyFetch)
      ⟨node + 4, .nameRef, none, [⟨node + 3, .ident, some "a", []⟩]⟩
      ⟨name (node + 4), .nameRef, none, [⟨name (node + 3), .ident, some "a", []⟩]⟩ :=
    .words (node + 4) [(node + 3, .ident, "a")] rfl
  exact .composite (node + 5) rfl (.keep (.composite (node + 1) rfl (.keep (.token ..) .nil))
    (hgap (.keep (.token ..) (.keep hproperty .nil))))

theorem spaced_callAndFetch {t t' : Tree} (object : String) {kind : Kind} {text : String}
    (ht : t.rootNode = callAndFetchNode id object [])
    (ht' : t'.rootNode = callAndFetchNode nameBehindGap object [⟨13, kind, some text, []⟩])
    (hkind : kind.isTrivia = true)
    (htext : Text.squeeze text = "" ∨ ∀ kind, guarded kind = false) :
    Node.Spaced guarded nameBehindGap true t.rootNode t'.rootNode := by
  rw [ht, ht']
  have hfoo : ∀ {comments}, Node.Spaced guarded nameBehindGap comments
      ⟨1, .nameRef, none, [⟨0, .ident, some "foo", []⟩]⟩
      ⟨1, .nameRef, none, [⟨0, .ident, some "foo", []⟩]⟩ := .words 1 [(0, .ident, "foo")] rfl
  refine .composite 20 rfl (.keep (.composite 19 rfl (.keep (.composite 17 rfl (.keep
    (.composite 9 rfl (.keep hfoo (.keep (.composite 8 rfl (.keep ?_ .nil)) .nil)))
    (.keep (.token ..) (.keep ?_ .nil)))) (.keep (.composite 18 rfl .nil) .nil))) .nil)
  · exact spaced_fetchNode "$this" 2 fun h => h
  · refine spaced_fetchNode object 11 (.insert ⟨rfl, hkind, rfl⟩ fun hcomments => ?_)
    rcases htext with hblank | hguarded
    · rwa [Node.text, Node.textAll, Option.getD_some, String.append_empty]
    · simp [hguarded] at hcomments

/-- A space before the arrow of `$b->a`. -/
def spacedFetch : Spacing where
  before := callAndFetch "$b" []
  after := callAndFetch "$b" [.token .whitespace " "]
  name := nameBehindGap
  sound_before := Tree.sound_ofEvents _
  sound_after := Tree.sound_ofEvents _
  root := spaced_callAndFetch "$b" rfl rfl rfl (.inl (by decide))

theorem findings_of_space_in_fetch :
    ((Analysis.new .standard).findings spacedFetch.after
      (Hierarchy.ofTree spacedFetch.after).lookup).map (·.message) =
        [IfConditions.messageOrdering] := by
  rw [← (reports_findings spacedFetch .standard).map_eq Reports.message]
  decide +kernel

/-- A comment before the arrow of the second `$this->a` hides that both terms read that property. -/
theorem exists_findings_ne :
    ∃ (t t' : Tree) (name : NodeId → NodeId), t.Sound ∧ t'.Sound ∧
      Node.Spaced (fun _ => false) name true t.rootNode t'.rootNode ∧
        (Analysis.new .standard).findings t (Hierarchy.ofTree t).lookup = [] ∧
        ((Analysis.new .standard).findings t' (Hierarchy.ofTree t').lookup).map (·.message) =
          [IfConditions.messageOrdering] :=
  ⟨callAndFetch "$this" [], callAndFetch "$this" [.token .comment "/* c */"], nameBehindGap,
    Tree.sound_ofEvents _, Tree.sound_ofEvents _,
    spaced_callAndFetch "$this" rfl rfl rfl (.inr fun _ => rfl), by decide +kernel, by decide +kernel⟩

end PhpLint.Spacing
