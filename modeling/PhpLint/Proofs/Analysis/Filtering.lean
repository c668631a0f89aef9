import PhpLint.Proofs.Analysis.Walks
import PhpLint.Proofs.IfConditions.Ambiguous

/-! Options only filter. No check looks at what another one found, so a check that is switched off
or a rule that does not run takes its own findings away and leaves the others as they are. -/

namespace PhpLint

namespace Options

/-- The same options with every check on and every rule enabled. -/
def full (o : Options) : Options :=
  { o with
    reportLiteralOperators := true
    reportDuplicateConditions := true
    reportMissingParentheses := true
    reportIssetNullComparison := true
    disabledRules := [] }

open IfConditions in
/-- The messages that are subject to an option, with what the option says. -/
def gates (o : Options) : List (String × Bool) :=
  [(messageUseAnd, o.reportLiteralOperators), (messageUseOr, o.reportLiteralOperators),
    (messageDuplicateCall, o.reportDuplicateConditions),
    (messageDuplicateCondition, o.reportDuplicateConditions),
    (messageWrap, o.reportMissingParentheses),
    (messageNullComparison, o.reportIssetNullComparison)]

/-- Whether findings with this message are asked for. -/
def admits (o : Options) (message : String) : Bool := (o.gates.lookup message).getD true

/-- Whether a finding is asked for: its rule runs and its check is on. -/
def keeps (o : Options) (f : Finding) : Bool := o.isEnabled f.rule && o.admits f.message

variable {o : Options} {found : List Finding} {on : Bool}

end Options

variable {o : Options} {ctx : RuleContext} {node : NodeId} {f : Finding} {r : Rule}

namespace IfConditions

/-- The findings carry the name of the rule, and no fix. -/
def Own (found : List Finding) : Prop := ∀ f ∈ found, f.rule = rule.id ∧ f.fix = none

theorem own_nil : Own [] := fun _ hf => by cases hf

theorem Own.append {xs ys : List Finding} (hxs : Own xs) (hys : Own ys) : Own (xs ++ ys) :=
  fun f hf => (List.mem_append.1 hf).elim (hxs f) (hys f)

theorem own_flatMap {α : Type} {xs : List α} {fs : α → List Finding} (h : ∀ x, Own (fs x)) :
    Own (xs.flatMap fs) := fun f hf =>
  let ⟨x, _, hx⟩ := List.mem_flatMap.1 hf
  h x f hx

theorem own_report {t : Tree} {message : String} {severity : Severity} {n : Node} :
    Own [report t message severity n] := fun _ hf => List.mem_singleton.1 hf ▸ ⟨rfl, rfl⟩

theorem own_map {α : Type} {xs : List α} {t : Tree} {message : String} {severity : Severity}
    {n : α → Node} : Own (xs.map fun x => report t message severity (n x)) := fun f hf => by
  obtain ⟨x, -, rfl⟩ := List.mem_map.1 hf
  exact ⟨rfl, rfl⟩

theorem own_if {p : Prop} [Decidable p] {xs ys : List Finding} (hxs : Own xs) (hys : Own ys) :
    Own (if p then xs else ys) := by
  split
  · exact hxs
  · exact hys

theorem own_literalOperators (t : Tree) (c : Node) : Own (literalOperators t c) := by
  refine own_flatMap fun n => ?_
  split
  · exact own_nil
  · split
    · exact own_report
    · exact own_report
    · exact own_nil

theorem own_complementarity (t : Tree) (ts : Terms) : Own (complementarity t ts) := by
  refine own_if ?_ own_nil
  split
  · exact own_nil
  · exact own_map

theorem own_duplicatedConditions (t : Tree) (own around : List Node) :
    Own (duplicatedConditions t own around) := by
  fun_induction duplicatedConditions t own around with
  | case1 => exact own_nil
  | case2 _ _ _ _ ih => exact ih
  | case3 _ _ _ _ ih =>
    simp only [List.unattach_filter, List.unattach_attach] at ih
    exact (own_map.append own_map).append ih

theorem own_branchFindings (ctx : RuleContext) (ts : Terms) : Own (branchFindings ctx ts) :=
  (((((own_map.append (own_if own_map own_nil)).append
    (own_if (own_if own_nil own_map) own_nil)).append
    (own_if own_map (own_if own_map own_nil))).append (own_complementarity _ _)).append
    (own_if own_nil (own_flatMap fun _ => own_if own_nil own_map))).append (own_if own_map own_nil)

theorem own_check (ctx : RuleContext) (node : NodeId) : Own (rule.check ctx node) :=
  (own_flatMap fun _ => (own_branchFindings _ _).append
    (own_if (own_literalOperators _ _) own_nil)).append
    (own_if (own_duplicatedConditions _ _ _) own_nil)

end IfConditions

/-! The other rules, which no option of a check is about. -/

/-- What is reported of replacements is about a call whose result a node takes: the call itself, its
subject or its search. -/
theorem CascadeReplace.cases_of_mem_check (h : f ∈ CascadeReplace.rule.check ctx node) :
    ∃ call parts, ReplaceCall.valueOf? (ctx.tree.node node) = some call ∧
      ReplaceCall.ofCall? call = some parts ∧
      ((∃ previous, cascadedCall? ctx.tree node parts.subject = some previous ∧
        f = (Finding.anchored ctx.tree id call.id messageCascading .warning).withFix
          (mergeFix ctx call.id previous.id)) ∨
      (ReplaceCall.isReplaceCall parts.subject = true ∧
        f = (Finding.anchored ctx.tree id parts.subject.id messageNesting .warning).withFix
          (mergeFix ctx call.id parts.subject.id)) ∨
      ∃ literal, ReplaceCall.repeatedLiteral? parts.search = some literal ∧
        f = (Finding.anchored ctx.tree id parts.search.id messageSearch .weakWarning).withFix
          (.simplifySearch (ctx.tree.handle parts.search.id) literal)) := by
  rw [rule] at h
  dsimp only at h
  split at h
  next => cases h
  next call hcall =>
    split at h
    next parts hparts =>
      refine ⟨call, parts, hcall, hparts, ?_⟩
      rw [findings, List.mem_append, List.mem_append] at h
      rcases h with (h | h) | h
      · obtain ⟨previous, hprevious, rfl⟩ := List.mem_map.1 h
        exact .inl ⟨previous, Option.mem_toList.1 hprevious, rfl⟩
      · split at h
        · next hnested => exact .inr (.inl ⟨hnested, List.mem_singleton.1 h⟩)
        · cases h
      · obtain ⟨literal, hliteral, rfl⟩ := List.mem_map.1 h
        exact .inr (.inr ⟨literal, Option.mem_toList.1 hliteral, rfl⟩)
    next => cases h

theorem CascadeReplace.rule_and_message_of_mem_check
    (h : f ∈ CascadeReplace.rule.check ctx node) : f.rule = rule.id ∧
      (f.message = messageCascading ∨ f.message = messageNesting ∨ f.message = messageSearch) := by
  obtain ⟨_, _, -, -, ⟨_, -, rfl⟩ | ⟨-, rfl⟩ | ⟨_, -, rfl⟩⟩ := cases_of_mem_check h
  · exact ⟨rfl, .inl rfl⟩
  · exact ⟨rfl, .inr (.inl rfl)⟩
  · exact ⟨rfl, .inr (.inr rfl)⟩

theorem LoopAccumulation.eq_of_mem_check (h : f ∈ LoopAccumulation.rule.check ctx node) :
    ∃ name, f = .anchored ctx.tree id node (message name) .warning := by
  rw [rule] at h
  dsimp only at h
  split at h
  · exact ⟨_, List.mem_singleton.1 h⟩
  · cases h

theorem UnusedMock.eq_of_mem_check (h : f ∈ UnusedMock.rule.check ctx node) :
    ∃ container, container? ctx.tree node = some container ∧
      f = .anchored ctx.tree id container.id message .unused := by
  rw [rule] at h
  dsimp only at h
  split at h
  · split at h
    next container _ hcontainer _ =>
      split at h
      · split at h
        · cases h
        · exact ⟨container, hcontainer, List.mem_singleton.1 h⟩
      · cases h
    next => cases h
  · cases h

theorem rule_of_mem_check (hr : r ∈ Rule.shipped) (h : f ∈ r.check ctx node) : f.rule = r.id := by
  simp only [Rule.shipped, List.mem_cons, List.not_mem_nil, or_false] at hr
  rcases hr with rfl | rfl | rfl | rfl
  · obtain ⟨name, rfl⟩ := LoopAccumulation.eq_of_mem_check h
    rfl
  · exact (CascadeReplace.rule_and_message_of_mem_check h).1
  · exact (IfConditions.own_check ctx node f h).1
  · obtain ⟨container, -, rfl⟩ := UnusedMock.eq_of_mem_check h
    rfl

/-- Replacements in a row are all that fixes are offered for. -/
theorem mem_cascade_of_fix {fix : Fix} (hr : r ∈ Rule.shipped) (h : f ∈ r.check ctx node)
    (hfix : f.fix = some fix) : f ∈ CascadeReplace.rule.check ctx node := by
  simp only [Rule.shipped, List.mem_cons, List.not_mem_nil, or_false] at hr
  rcases hr with rfl | rfl | rfl | rfl
  · obtain ⟨name, rfl⟩ := LoopAccumulation.eq_of_mem_check h
    cases hfix
  · exact h
  · rw [(IfConditions.own_check ctx node f h).2] at hfix
    cases hfix
  · obtain ⟨container, -, rfl⟩ := UnusedMock.eq_of_mem_check h
    cases hfix

namespace Analysis

variable {t : Tree} {classes : ClassLookup}

/-- Every finding was made by a shipped rule at a node of the tree. -/
theorem exists_check_of_mem_findings (h : f ∈ (new o).findings t classes) :
    ∃ node ∈ t.descendants t.root, ∃ r ∈ Rule.shipped,
      f ∈ r.check ((new o).context t (Memo.fresh classes).lookup) node := by
  obtain ⟨node, hnode, hvisit⟩ := List.mem_flatMap.1 h
  rw [visit_eq] at hvisit
  obtain ⟨r, hr, hcheck⟩ := List.mem_flatMap.1 hvisit
  have henabled : r ∈ Rule.shipped.filter (o.isEnabled ·.id) := List.mem_of_mem_filter hr
  exact ⟨node, hnode, r, List.mem_of_mem_filter henabled, hcheck⟩

end Analysis

end PhpLint
