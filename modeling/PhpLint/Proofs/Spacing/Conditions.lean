import PhpLint.Proofs.Spacing.Reading
import PhpLint.Rule.IfConditions

/-! White space and comments do not change what is said about conditions. -/

namespace PhpLint

theorem repeated_forall₂ {α β : Type} {R : α → β → Prop} {same : α → α → Bool}
    {same' : β → β → Bool} (hsame : ∀ {x y x' y'}, R x x' → R y y' → same x y = same' x' y')
    {xs : List α} {ys : List β} (h : List.Forall₂ R xs ys) :
    List.Forall₂ R (repeated same xs) (repeated same' ys) := by
  fun_induction repeated same xs generalizing ys with
  | case1 =>
    cases h
    rw [repeated]
    exact .nil
  | case2 x xs ih =>
    cases h with
    | cons hxy h =>
      simp only [List.unattach_filter, List.unattach_attach] at ih
      rw [repeated]
      exact List.rel_append (h.filter_of_eq fun hz => hsame hz hxy)
        (ih (h.filter_of_eq fun hz => by rw [hsame hz hxy]))

namespace Spacing

variable {s : Spacing} {n n' m m' : Node} {x x' : NodeId}

/-- What is found in the left tree and in the right one, location and places in the text aside. -/
structure Reports (s : Spacing) (f f' : Finding) : Prop where
  rule : f.rule = f'.rule
  anchor : s.At f.anchor.id f'.anchor.id
  message : f.message = f'.message
  severity : f.severity = f'.severity
  fix : Option.Rel (fun fix fix' => fix.name = fix'.name ∧
    List.Forall₂ (fun a a' => s.At a.id a'.id) fix.handles fix'.handles) f.fix f'.fix

theorem reports_anchored (h : s.At x x') (rule message : String) (severity : Severity) :
    s.Reports (.anchored s.before rule x message severity)
      (.anchored s.after rule x' message severity) :=
  ⟨rfl, h, rfl, rfl, .none⟩

/-- What a rule consults about the left tree, and about the right one. -/
def contextBefore (s : Spacing) (o : Options) (classes : ClassLookup) : RuleContext :=
  ⟨s.before, o, classes, Coupling.shared, o.cheapNames⟩

def contextAfter (s : Spacing) (o : Options) (classes : ClassLookup) : RuleContext :=
  ⟨s.after, o, classes, Coupling.shared, o.cheapNames⟩

theorem equivalent_eq (h : s.At x x') {y y' : NodeId} (hy : s.At y y') :
    s.before.equivalent x y = s.after.equivalent x' y' := by
  rw [Tree.equivalent, Tree.equivalentAcross, h.code_eq, hy.code_eq, Tree.equivalent,
    Tree.equivalentAcross]

/-- The same terms under the same operator. -/
structure SameTerms (s : Spacing) (ts ts' : Terms) : Prop where
  operator : ts.operator = ts'.operator
  terms : List.Forall₂ s.Twins ts.terms ts'.terms

theorem sameTerms_ofCondition (h : s.Twins n n') :
    s.SameTerms (Terms.ofCondition n) (Terms.ofCondition n') :=
  ⟨h.operator_ofCondition_eq, h.terms_ofCondition⟩

open IfConditions

namespace Conditions

variable {ts ts' : Terms} {terms terms' : List Node} (o : Options) (classes : ClassLookup)

theorem report (h : s.Twins n n') (message : String) (severity : Severity) :
    s.Reports (IfConditions.report s.before message severity n)
      (IfConditions.report s.after message severity n') :=
  reports_anchored h.at_id ..

theorem map_report (h : List.Forall₂ s.Twins terms terms') (message : String) (severity : Severity) :
    List.Forall₂ s.Reports (terms.map (IfConditions.report s.before message severity))
      (terms'.map (IfConditions.report s.after message severity)) :=
  h.map_of fun hc => report hc ..

theorem same_eq (h : s.Twins n n') (hm : s.Twins m m') :
    same s.before n m = same s.after n' m' := equivalent_eq h.at_id hm.at_id

theorem isMisplaced_eq (h : s.Twins n n') (hm : s.Twins m m') :
    isMisplaced (s.contextBefore o classes) n m = isMisplaced (s.contextAfter o classes) n' m' := by
  rw [isMisplaced, isMisplaced, contextBefore, contextAfter]
  dsimp only
  rw [h.cost_eq, hm.cost_eq, h.shared_eq hm]

theorem ordering (h : List.Forall₂ s.Twins terms terms') :
    List.Forall₂ s.Reports (IfConditions.ordering (s.contextBefore o classes) terms)
      (IfConditions.ordering (s.contextAfter o classes) terms') := by
  have htail : List.Forall₂ s.Twins terms.tail terms'.tail := by
    rw [← List.drop_one, ← List.drop_one]
    exact List.forall₂_drop 1 h
  exact ((h.zip htail).filter_of_eq fun hp => isMisplaced_eq o classes hp.1 hp.2).map_of
    fun hp => report hp.2 ..

theorem isConfusing_eq (h : s.Twins n n') : isConfusing s.before n = isConfusing s.after n' := by
  rw [isConfusing, isConfusing, h.kind_eq, h.operatorKind?_eq,
    h.at_id.parent?.any_eq fun hp => by rw [hp.kind_eq]]

theorem missingParentheses (h : List.Forall₂ s.Twins terms terms') :
    List.Forall₂ s.Reports (IfConditions.missingParentheses s.before terms)
      (IfConditions.missingParentheses s.after terms') :=
  map_report (h.filter_of_eq isConfusing_eq) ..

theorem operandCalls (h : List.Forall₂ s.Twins terms terms') :
    List.Forall₂ s.Twins (IfConditions.operandCalls terms) (IfConditions.operandCalls terms') := by
  refine List.Forall₂.filter_of_eq ?_ fun hc => by rw [hc.kind_eq]
  exact (h.filter_of_eq fun hc => hc.beq_kind _).flatMap_of fun hc =>
    List.rel_append hc.left?.toList hc.right?.toList

theorem duplicatedCalls (h : List.Forall₂ s.Twins terms terms') :
    List.Forall₂ s.Reports (IfConditions.duplicatedCalls s.before terms)
      (IfConditions.duplicatedCalls s.after terms') := by
  rw [IfConditions.duplicatedCalls, IfConditions.duplicatedCalls, h.length_eq]
  split
  · exact .nil
  · exact map_report (repeated_forall₂ (R := s.Twins) same_eq (operandCalls h)) ..

theorem negatedIsset? (h : s.Twins n n') :
    Option.Rel s.Twins (IfConditions.negatedIsset? n) (IfConditions.negatedIsset? n') := by
  rw [IfConditions.negatedIsset?, IfConditions.negatedIsset?, h.kind_eq, h.operatorKind?_eq]
  split
  · exact (h.operand?.map fun hc => hc.unparenthesized).filter fun hc => hc.beq_kind _
  · exact .none

theorem isConjunction_eq (h : s.SameTerms ts ts') : ts.isConjunction = ts'.isConjunction := by
  rw [Terms.isConjunction, h.operator, Terms.isConjunction]

theorem isDisjunction_eq (h : s.SameTerms ts ts') : ts.isDisjunction = ts'.isDisjunction := by
  rw [Terms.isDisjunction, h.operator, Terms.isDisjunction]

theorem multipleIsset (h : s.SameTerms ts ts') :
    List.Forall₂ s.Reports (IfConditions.multipleIsset s.before ts)
      (IfConditions.multipleIsset s.after ts') := by
  rw [IfConditions.multipleIsset, IfConditions.multipleIsset, isConjunction_eq h,
    isDisjunction_eq h]
  split
  · exact map_report (List.forall₂_drop 1 (h.terms.filter_of_eq fun hc => hc.beq_kind _)) ..
  · split
    · exact map_report (List.forall₂_drop 1 (h.terms.filterMap_of negatedIsset?)) ..
    · exact .nil

theorem isInstanceof_eq (h : s.Twins n n') : isInstanceof n = isInstanceof n' := by
  rw [isInstanceof, h.kind_eq, h.operatorKind?_eq, isInstanceof]

theorem equalityOperands? (h : s.Twins n n') :
    Option.Rel (fun p p' => s.Twins p.1 p'.1 ∧ s.Twins p.2 p'.2)
      (IfConditions.equalityOperands? n) (IfConditions.equalityOperands? n') := by
  rw [IfConditions.equalityOperands?, IfConditions.equalityOperands?, h.kind_eq,
    h.operatorKind?_eq]
  split
  · rcases h.left?.eq_or with ⟨hl, hl'⟩ | ⟨l, l', hl, hl', hleft⟩
    · rw [hl, hl']
      exact .none
    · rcases h.right?.eq_or with ⟨hr, hr'⟩ | ⟨r, r', hr, hr', hright⟩
      · rw [hl, hl', hr, hr']
        exact .none
      · rw [hl, hl', hr, hr']
        exact .some ⟨hleft, hright⟩
  · exact .none

theorem complementarity (h : s.SameTerms ts ts') :
    List.Forall₂ s.Reports (IfConditions.complementarity s.before ts)
      (IfConditions.complementarity s.after ts') := by
  rw [IfConditions.complementarity, IfConditions.complementarity, isConjunction_eq h,
    h.terms.length_eq]
  split
  · rcases ((h.terms.find? isInstanceof_eq).bind fun hc => hc.left?).eq_or with
      ⟨hnone, hnone'⟩ | ⟨c, c', hc, hc', hsubject⟩
    · rw [hnone, hnone']
      exact .nil
    · rw [hc, hc']
      refine map_report (h.terms.filter_of_eq fun hterm => ?_) ..
      exact (equalityOperands? hterm).any_eq fun hp => by
        rw [same_eq hsubject hp.1, same_eq hsubject hp.2]
  · exact .nil

/-! Type tests. -/

/-- Tests of twins for one class. -/
def SameTest (s : Spacing) (test test' : TypeTest) : Prop :=
  s.Twins test.term test'.term ∧ test.className = test'.className

theorem typeTest? (h : s.Twins n n') :
    Option.Rel (fun p p' => s.Twins p.1 p'.1 ∧ SameTest s p.2 p'.2)
      (IfConditions.typeTest? (s.contextBefore o classes) n)
      (IfConditions.typeTest? (s.contextAfter o classes) n') := by
  rw [IfConditions.typeTest?, IfConditions.typeTest?]
  refine h.left?.bind fun hleft => h.right?.bind fun {r r'} hright => ?_
  rw [hright.kind_eq]
  split
  · exact .none
  next hkind =>
    rw [hright.text_eq (by rw [hright.kind_eq, not_not.1 hkind]; rfl)]
    change Option.Rel _ ((classes.resolve r'.text).bind _) ((classes.resolve r'.text).bind _)
    cases classes.resolve r'.text with
    | none => exact .none
    | some name => exact .some ⟨hleft, h, rfl⟩

def SameTests (s : Spacing) (g g' : TypeTests) : Prop :=
  s.Twins g.subject g'.subject ∧ List.Forall₂ (SameTest s) g.tests g'.tests

theorem addTest (h : s.Twins n n') {test test' : TypeTest} (ht : SameTest s test test')
    {gs gs' : List TypeTests} (hgs : List.Forall₂ (SameTests s) gs gs') :
    List.Forall₂ (SameTests s) (IfConditions.addTest s.before n test gs)
      (IfConditions.addTest s.after n' test' gs') := by
  induction hgs with
  | nil => exact .cons ⟨h, .cons ht .nil⟩ .nil
  | cons hg hgs ih =>
    rw [IfConditions.addTest, IfConditions.addTest, same_eq hg.1 h]
    split
    · exact .cons ⟨hg.1, List.rel_append hg.2 (.cons ht .nil)⟩ hgs
    · exact .cons hg ih

theorem isRedundant_eq {tests tests' : List TypeTest} (h : List.Forall₂ (SameTest s) tests tests')
    {test test' : TypeTest} (ht : SameTest s test test') :
    isRedundant (s.contextBefore o classes) tests test =
      isRedundant (s.contextAfter o classes) tests' test' := by
  rw [isRedundant, isRedundant, ht.2]
  refine congrArg (Option.any · (classes.ancestors test'.className)) (funext fun above => ?_)
  exact h.any_eq fun hother => by rw [bne, bne, hother.1.id_beq ht.1, hother.2]

theorem ambiguousInstanceof (h : List.Forall₂ s.Twins terms terms') :
    List.Forall₂ s.Reports (IfConditions.ambiguousInstanceof (s.contextBefore o classes) terms)
      (IfConditions.ambiguousInstanceof (s.contextAfter o classes) terms') := by
  have htests := h.filter_of_eq isInstanceof_eq
  rw [IfConditions.ambiguousInstanceof, IfConditions.ambiguousInstanceof]
  dsimp only
  rw [htests.length_eq]
  split
  · exact .nil
  · refine List.Forall₂.flatMap_of (R := SameTests s) ?_ fun hg => ?_
    · refine List.rel_foldl (P := List.Forall₂ (SameTests s)) (R := fun p p' =>
        s.Twins p.1 p'.1 ∧ SameTest s p.2 p'.2) (fun _ _ hgs _ _ hp => addTest hp.1 hp.2 hgs) .nil
        (htests.filterMap_of (typeTest? o classes))
    · rw [hg.2.length_eq]
      split
      · exact .nil
      · exact (hg.2.filter_of_eq fun ht => isRedundant_eq o classes hg.2 ht).map_of
          fun ht => report ht.1 ..

/-! Comparisons with null, operators as words. -/

theorem comparedWithNull? (h : s.Twins n n') :
    Option.Rel s.Twins (IfConditions.comparedWithNull? n) (IfConditions.comparedWithNull? n') :=
  (equalityOperands? h).bind fun {p p'} hp => by
    obtain ⟨left, right⟩ := p
    obtain ⟨left', right'⟩ := p'
    dsimp only
    rw [hp.1.isKeywordLiteral_eq, hp.2.isKeywordLiteral_eq]
    split
    · exact .some hp.1
    · split
      · exact .some hp.2
      · exact .none

theorem issetNullComparison (h : List.Forall₂ s.Twins terms terms') :
    List.Forall₂ s.Reports (IfConditions.issetNullComparison s.before terms)
      (IfConditions.issetNullComparison s.after terms') := by
  have hchecked := (h.filter_of_eq (p := (·.kind == .issetExpr)) (q := (·.kind == .issetExpr))
    fun hc => hc.beq_kind _).flatMap_of fun hc => hc.arguments
  refine map_report (h.filter_of_eq fun hterm => ?_) ..
  exact (comparedWithNull? hterm).any_eq fun hc => hchecked.any_eq fun hd => same_eq hd hc

theorem literalOperators (h : s.Twins n n') :
    List.Forall₂ s.Reports (IfConditions.literalOperators s.before n)
      (IfConditions.literalOperators s.after n') := by
  refine (h.descendants.filter_of_eq fun hc => hc.beq_kind _).flatMap_of fun hc => ?_
  rcases hc.operator?.eq_or with ⟨hop, hop'⟩ | ⟨op, op', hop, hop', htwins⟩
  · rw [hop, hop']
    exact .nil
  · rw [hop, hop']
    dsimp only
    rw [htwins.kind_eq]
    split
    iterate 2 exact .cons (report htwins ..) .nil
    exact .nil

theorem reports_if {b : Bool} {fs fs' : List Finding} (h : List.Forall₂ s.Reports fs fs') :
    List.Forall₂ s.Reports (if b then fs else []) (if b then fs' else []) := by
  cases b
  · exact .nil
  · exact h

theorem branchFindings (h : s.SameTerms ts ts') :
    List.Forall₂ s.Reports (IfConditions.branchFindings (s.contextBefore o classes) ts)
      (IfConditions.branchFindings (s.contextAfter o classes) ts') := by
  exact List.rel_append (List.rel_append (List.rel_append (List.rel_append (List.rel_append
    (List.rel_append (ordering o classes h.terms) (reports_if (missingParentheses h.terms)))
    (reports_if (duplicatedCalls h.terms))) (multipleIsset h)) (complementarity h))
    (ambiguousInstanceof o classes h.terms)) (reports_if (issetNullComparison h.terms))

/-! Checks across branches. -/

theorem conditions (h : s.Twins n n') :
    List.Forall₂ s.Twins (IfConditions.conditions n) (IfConditions.conditions n') :=
  (List.Forall₂.cons h h.elseIfs).filterMap_of fun hc => hc.condition?

theorem enclosingTerms (h : s.At x x') :
    List.Forall₂ s.Twins (IfConditions.enclosingTerms s.before x)
      (IfConditions.enclosingTerms s.after x') :=
  (h.localAncestors.filter_of_eq fun ha => by rw [ha.kind_eq]).flatMap_of fun ha =>
    (conditions ha.twins).flatMap_of fun hc => hc.terms_ofCondition

theorem bareSubject? (h : s.Twins n n') :
    Option.Rel s.Twins (IfConditions.bareSubject? n) (IfConditions.bareSubject? n') := by
  rw [IfConditions.bareSubject?, IfConditions.bareSubject?]
  refine Option.Rel.map (R := s.Twins) ?_ fun {m m'} hm => ?_
  · rw [h.kind_eq, h.operatorKind?_eq]
    split
    · exact h.operand?.map fun hc => hc.unparenthesized
    · exact .some h
  · rw [hm.kind_eq]
    split
    · rcases hm.left?.eq_or with ⟨hl, hl'⟩ | ⟨l, l', hl, hl', hleft⟩
      · rw [hl, hl']
        exact hm
      · rcases hm.right?.eq_or with ⟨hr, hr'⟩ | ⟨r, r', hr, hr', hright⟩
        · rw [hl, hl', hr, hr']
          exact hm
        · rw [hl, hl', hr, hr']
          dsimp only
          rw [hright.isKeywordLiteral_eq, hleft.isKeywordLiteral_eq]
          split
          · exact hleft
          · split
            · exact hright
            · exact hm
    · exact hm

theorem isBareCheck_eq (h : s.Twins n n') : isBareCheck n = isBareCheck n' := by
  rw [isBareCheck, isBareCheck]
  rcases (bareSubject? h).eq_or with ⟨hc, hc'⟩ | ⟨c, c', hc, hc', htwins⟩
  · rw [hc, hc']
  · rw [hc, hc']
    dsimp only
    rw [htwins.kind_eq]

theorem duplicatedConditions {own own' around around' : List Node}
    (h : List.Forall₂ s.Twins own own') (haround : List.Forall₂ s.Twins around around') :
    List.Forall₂ s.Reports (IfConditions.duplicatedConditions s.before own around)
      (IfConditions.duplicatedConditions s.after own' around') := by
  fun_induction IfConditions.duplicatedConditions s.before own around generalizing own' around' with
  | case1 =>
    cases h
    rw [IfConditions.duplicatedConditions]
    exact .nil
  | case2 term own around hbare ih =>
    cases h with
    | cons hterm hown =>
      rw [IfConditions.duplicatedConditions, if_pos (by rwa [← isBareCheck_eq hterm])]
      exact ih hown haround
  | case3 term own around hbare ih =>
    cases h with
    | cons hterm hown =>
      simp only [List.unattach_filter, List.unattach_attach] at ih
      rw [IfConditions.duplicatedConditions, if_neg (by rwa [← isBareCheck_eq hterm])]
      refine List.rel_append (List.rel_append ?_ ?_) (ih ?_ ?_)
      · exact map_report (hown.filter_of_eq fun hc => same_eq hc hterm) ..
      · exact (haround.filter_of_eq fun hc => same_eq hc hterm).map_of fun _ => report hterm ..
      · exact hown.filter_of_eq fun hc => by rw [same_eq hc hterm]
      · exact haround.filter_of_eq fun hc => by rw [same_eq hc hterm]

end Conditions

/-- The rule on conditions says the same of twins. -/
theorem check_ifConditions (h : s.At x x') (o : Options) (classes : ClassLookup) :
    List.Forall₂ s.Reports (IfConditions.rule.check (s.contextBefore o classes) x)
      (IfConditions.rule.check (s.contextAfter o classes) x') := by
  have hsplit : List.Forall₂ (fun p p' => s.Twins p.1 p'.1 ∧ s.SameTerms p.2 p'.2)
      ((conditions (s.before.node x)).map fun c => (c, Terms.ofCondition c))
      ((conditions (s.after.node x')).map fun c => (c, Terms.ofCondition c)) :=
    (Conditions.conditions h.twins).map_of fun hc => ⟨hc, sameTerms_ofCondition hc⟩
  refine List.rel_append (hsplit.flatMap_of fun hp => ?_) ?_
  · exact List.rel_append (Conditions.branchFindings o classes hp.2)
      (Conditions.reports_if (Conditions.literalOperators hp.1))
  · exact Conditions.reports_if (Conditions.duplicatedConditions
      (hsplit.flatMap_of fun hp => hp.2.terms) (Conditions.enclosingTerms h))

end Spacing

end PhpLint
