import PhpLint.Cost
import PhpLint.Coupling
import PhpLint.Hierarchy.Basic
import PhpLint.Proofs.Condition.Truth
import PhpLint.Proofs.ReplaceCall.Simplifying
import PhpLint.Proofs.Spacing.Twins
import PhpLint.ReplaceCall.Basic

/-! Twins are read alike. The parts of an expression or statement have twins in the parts of its
twin; names, costs and the classes of a file are the same. -/

namespace PhpLint

namespace Node

variable {n : Node}

theorem Respaced.variableName?_eq {guarded : Kind → Bool} {name : NodeId → NodeId} {n' : Node}
    (h : Respaced guarded name n n') :
    n.variableName? = n'.variableName? := by
  obtain ⟨_, hspaced⟩ := h
  obtain ⟨_, hcs⟩ := hspaced.exists_children
  have htokens := hcs.filter (p := fun c => c.isToken && c.kind == .varName)
    (q := fun c => c.isToken && c.kind == .varName) (fun hc => by rw [hc.isToken_eq, hc.kind_eq])
    fun hb => by simpa using fun _ => hb.kind_ne rfl
  rw [variableName?, variableName?, hspaced.head_eq.2.1, tokenOfKind?, tokenOfKind?,
    ← List.head?_filter, ← List.head?_filter, htokens.head?.bind_eq Respaced.token_eq]

end Node

namespace Spacing

variable {s : Spacing} {n n' m m' : Node}

namespace Twins

/-! Parts of expressions. -/

theorem calleeRef? (h : s.Twins n n') : Option.Rel s.Twins n.calleeRef? n'.calleeRef? := by
  rw [Node.calleeRef?, Node.calleeRef?, h.kind_eq]
  split
  iterate 3 exact (h.childNodes.getElem? _).filter fun hc => hc.beq_kind _
  exact .none

theorem calleeName?_eq (h : s.Twins n n') : n.calleeName? = n'.calleeName? := by
  have hname : ∀ c, n.calleeRef? = some c → c.kind = .nameRef := fun c hc => by
    unfold Node.calleeRef? at hc
    split at hc
    iterate 3 exact beq_iff_eq.1 (Option.filter_eq_some_iff.1 hc).2
    cases hc
  rw [Node.calleeName?, Node.calleeName?]
  rcases h.calleeRef?.eq_or with ⟨hc, hc'⟩ | ⟨c, c', hc, hc', htwins⟩
  · rw [hc, hc']
  · have hwords : c.kind.holdsWords = true := by rw [hname c hc]; rfl
    rw [hc, hc', Option.map_some, Option.map_some, htwins.text_eq hwords]

theorem isCallTo_eq (h : s.Twins n n') (names : List String) :
    n.isCallTo names = n'.isCallTo names := by
  rw [Node.isCallTo, h.calleeName?_eq, Node.isCallTo]

theorem arguments (h : s.Twins n n') : List.Forall₂ s.Twins n.arguments n'.arguments := by
  rw [Node.arguments, Node.arguments, Node.argList?, Node.argList?]
  rcases (h.firstOfKind? .argList rfl).eq_or with ⟨hl, hl'⟩ | ⟨l, l', hl, hl', htwins⟩
  · rw [hl, hl']
    exact .nil
  · rw [hl, hl']
    exact htwins.childNodes

theorem receiver? (h : s.Twins n n') : Option.Rel s.Twins n.receiver? n'.receiver? := by
  rw [Node.receiver?, Node.receiver?, h.kind_eq]
  split
  iterate 5 exact h.childNodes.getElem? 0
  exact .none

theorem operator? (h : s.Twins n n') : Option.Rel s.Twins n.operator? n'.operator? := by
  rw [Node.operator?, Node.operator?, h.kind_eq]
  split
  iterate 4 exact h.solidChildren.find? Twins.isToken_eq
  exact .none

theorem left? (h : s.Twins n n') : Option.Rel s.Twins n.left? n'.left? := by
  rw [Node.left?, Node.left?, h.kind_eq]
  split
  iterate 2 exact h.childNodes.getElem? 0
  exact .none

theorem right? (h : s.Twins n n') : Option.Rel s.Twins n.right? n'.right? := by
  rw [Node.right?, Node.right?, h.kind_eq]
  split
  iterate 2 exact h.childNodes.getElem? 1
  exact .none

theorem operand? (h : s.Twins n n') : Option.Rel s.Twins n.operand? n'.operand? := by
  rw [Node.operand?, Node.operand?, h.kind_eq]
  split
  iterate 4 exact h.childNodes.getElem? 0
  exact .none

theorem unparenthesized (h : s.Twins n n') : s.Twins n.unparenthesized n'.unparenthesized := by
  fun_induction Node.unparenthesized n generalizing n' with
  | case1 n hkind inner hinner ih =>
    obtain ⟨inner', hinner', htwins⟩ := h.operand?.exists_of_eq_some hinner
    rw [Node.unparenthesized_of_operand? (h.kind_eq.symm.trans hkind) hinner']
    exact ih htwins
  | case2 n hkind hnone =>
    rw [Node.unparenthesized_of_operand?_eq_none (h.operand?.eq_none hnone)]
    exact h
  | case3 n hkind =>
    rw [Node.unparenthesized_of_kind_ne (h.kind_eq ▸ hkind)]
    exact h

theorem target? (h : s.Twins n n') : Option.Rel s.Twins n.target? n'.target? := by
  rw [Node.target?, Node.target?, h.kind_eq]
  split
  · exact h.childNodes.getElem? 0
  · exact .none

theorem value? (h : s.Twins n n') : Option.Rel s.Twins n.value? n'.value? := by
  rw [Node.value?, Node.value?, h.kind_eq]
  split
  · exact h.childNodes.getElem? 1
  · exact .none

theorem variableName?_eq (h : s.Twins n n') : n.variableName? = n'.variableName? :=
  h.respaced.variableName?_eq

theorem variableReferences (h : s.Twins n n') (name : String) :
    List.Forall₂ s.Twins (n.variableReferences name) (n'.variableReferences name) :=
  h.filter_preorder (fun hc => by rw [hc.variableName?_eq]) fun hb => by
    rw [Node.variableName?, if_neg (hb.kind_ne rfl)]
    rfl

theorem literalToken? (h : s.Twins n n') : Option.Rel s.Twins n.literalToken? n'.literalToken? := by
  rw [Node.literalToken?, Node.literalToken?, h.kind_eq]
  split
  · exact h.solidChildren.head?
  · exact .none

theorem isStringLiteral_eq (h : s.Twins n n') : n.isStringLiteral = n'.isStringLiteral :=
  h.literalToken?.any_eq fun ht => ht.beq_kind _

theorem isKeywordLiteral_eq (h : s.Twins n n') (kinds : List Kind) :
    n.isKeywordLiteral kinds = n'.isKeywordLiteral kinds :=
  h.literalToken?.any_eq fun ht => by rw [ht.kind_eq]

theorem elements (h : s.Twins n n') : List.Forall₂ s.Twins n.elements n'.elements := by
  rw [Node.elements, Node.elements, h.kind_eq]
  split
  · exact h.childrenOfKind .arrayElement rfl
  · exact .nil

theorem elementKey? (h : s.Twins n n') : Option.Rel s.Twins n.elementKey? n'.elementKey? := by
  rw [Node.elementKey?, Node.elementKey?, (h.tokenOfKind? .fatArrow rfl).isSome_eq]
  split
  · exact h.childNodes.getElem? 0
  · exact .none

theorem elementValue? (h : s.Twins n n') : Option.Rel s.Twins n.elementValue? n'.elementValue? :=
  h.childNodes.getLast?

/-! Parts of statements and declarations. -/

theorem condition? (h : s.Twins n n') : Option.Rel s.Twins n.condition? n'.condition? := by
  rw [Node.condition?, Node.condition?, h.kind_eq]
  split
  iterate 3 exact h.childNodes.getElem? 0
  · exact h.childNodes.getElem? 1
  · exact .none

theorem elseIfs (h : s.Twins n n') : List.Forall₂ s.Twins n.elseIfs n'.elseIfs :=
  h.childrenOfKind .elseIfClause rfl

theorem statements (h : s.Twins n n') : List.Forall₂ s.Twins n.statements n'.statements :=
  h.childNodes.filter_of_eq fun hc => by rw [hc.kind_eq]

theorem functionBody? (h : s.Twins n n') : Option.Rel s.Twins n.functionBody? n'.functionBody? := by
  rw [Node.functionBody?, Node.functionBody?, h.kind_eq]
  split
  · exact h.childNodes.getLast?
  · exact h.firstOfKind? .block rfl

/-- A name found by its kind has the text of its twin. -/
theorem map_text_firstOfKind? (h : s.Twins n n') (kind : Kind) (hkind : kind.holdsWords = true)
    {α : Type} (f : String → α) :
    ((n.firstOfKind? kind).map fun c => f c.text) = (n'.firstOfKind? kind).map fun c => f c.text := by
  have htrivia : kind.isTrivia = false := by cases kind <;> first | rfl | cases hkind
  rcases (h.firstOfKind? kind htrivia).eq_or with ⟨hc, hc'⟩ | ⟨c, c', hc, hc', htwins⟩
  · rw [hc, hc']
  · have hckind : c.kind = kind :=
      beq_iff_eq.1 (List.find?_some (p := fun c : Node => c.kind == kind) hc)
    rw [hc, hc', Option.map_some, Option.map_some, htwins.text_eq (hckind ▸ hkind)]

theorem declaredName?_eq (h : s.Twins n n') : n.declaredName? = n'.declaredName? :=
  h.map_text_firstOfKind? .declaredName rfl Text.trim

theorem namesIn_eq (h : s.Twins n n') {list : Kind} (hlist : list.isTrivia = false) :
    n.namesIn list = n'.namesIn list := by
  have htext : ∀ {l l' : Node}, s.Twins l l' →
      ((l.childrenOfKind .nameRef).map fun name => Text.trim name.text) =
        (l'.childrenOfKind .nameRef).map fun name => Text.trim name.text := fun hl =>
    (hl.childrenOfKind .nameRef rfl).and_mem.map_eq fun ⟨hname, hmem, _⟩ => by
      rw [hname.text_eq (by rw [beq_iff_eq.1 (List.mem_filter.1 hmem).2]; rfl)]
  rw [Node.namesIn, Node.namesIn, (h.firstOfKind? list hlist).map_eq htext]

theorem extendsNames_eq (h : s.Twins n n') : n.extendsNames = n'.extendsNames := h.namesIn_eq rfl

theorem implementsNames_eq (h : s.Twins n n') : n.implementsNames = n'.implementsNames :=
  h.namesIn_eq rfl

/-! Costs. -/

theorem functionCost_eq (h : s.Twins n n') (cheap : List String) :
    Cost.functionCost cheap n = Cost.functionCost cheap n' := by
  rw [Cost.functionCost, h.calleeName?_eq, Cost.functionCost]

theorem cost_eq_of_below (h : s.Twins n n') (cheap : List String)
    (hchild : ∀ {c c'}, s.Twins c c' → c ∈ n.childNodes → Cost.cost cheap c = Cost.cost cheap c')
    (hargument : ∀ {c c'}, s.Twins c c' → c ∈ n.arguments →
      Cost.cost cheap c = Cost.cost cheap c') : Cost.cost cheap n = Cost.cost cheap n' := by
  refine Cost.cost_congr h.kind_eq (fun _ => h.functionCost_eq cheap) ?_ ?_
  · exact h.childNodes.and_mem.map_eq fun hc => hchild hc.1 hc.2.1
  · exact h.arguments.and_mem.map_eq fun hc => hargument hc.1 hc.2.1

/-- What may be put in costs nothing. -/
theorem cost_eq (h : s.Twins n n') (cheap : List String) : Cost.cost cheap n = Cost.cost cheap n' := by
  suffices hbelow : ∀ n : Node, ∀ m ∈ n.preorder, ∀ {m'}, s.Twins m m' →
      Cost.cost cheap m = Cost.cost cheap m' from hbelow n n (Node.mem_preorder_self n) h
  intro n
  -- arguments are children of a child
  induction n using Node.induction with
  | mk id kind token children ih =>
    intro m hm m' hm'
    rw [Node.preorder_eq, List.mem_cons, List.mem_flatMap] at hm
    rcases hm with rfl | ⟨c, hc, hm⟩
    · refine hm'.cost_eq_of_below cheap (fun hd hmem => ?_) fun hd hmem => ?_
      · exact ih _ (List.mem_of_mem_filter hmem) _ (Node.mem_preorder_self _) hd
      · rw [Node.arguments] at hmem
        cases hlist : (⟨id, kind, token, children⟩ : Node).argList? with
        | none =>
          rw [hlist] at hmem
          cases hmem
        | some l =>
          rw [hlist] at hmem
          exact ih l (List.mem_of_find?_eq_some hlist) _
            (Node.mem_preorder_of_child (List.mem_of_mem_filter hmem) (Node.mem_preorder_self _)) hd
    · exact ih c hc m hm hm'

/-! Coupling. -/

theorem isWrite_eq (h : s.Twins n n') : Coupling.isWrite n = Coupling.isWrite n' := by
  rw [Coupling.isWrite, Coupling.isWrite, h.kind_eq]
  split
  iterate 2 rfl
  · exact h.solidChildren.head?.any_eq fun hc => by rw [hc.kind_eq]
  · rfl

theorem hasSideEffect_eq (h : s.Twins n n') :
    Coupling.hasSideEffect n = Coupling.hasSideEffect n' :=
  h.descendants.any_eq Twins.isWrite_eq

theorem readVariables_eq (h : s.Twins n n') :
    Coupling.readVariables n = Coupling.readVariables n' := by
  have hvariables : ∀ ms : List Node, ms.filterMap Node.variableName? =
      (ms.filter (·.kind == .variableExpr)).filterMap Node.variableName? := fun ms => by
    rw [List.filterMap_filter]
    refine List.filterMap_congr fun m _ => ?_
    rw [Node.variableName?]
    split <;> simp_all
  rw [Coupling.readVariables, Coupling.readVariables, hvariables n.preorder,
    hvariables n'.preorder, (h.preorderOfKind .variableExpr rfl).filterMap_eq Twins.variableName?_eq]

theorem propertyReads_eq (h : s.Twins n n') :
    Coupling.propertyReads n = Coupling.propertyReads n' :=
  (h.preorderOfKind .propertyFetch rfl).and_mem.map_eq fun ⟨hfetch, hmem, _⟩ =>
    hfetch.squeeze_text_eq (beq_iff_eq.1 (List.mem_filter.1 hmem).2)

theorem shared_eq (h : s.Twins n n') (hm : s.Twins m m') :
    Coupling.shared n m = Coupling.shared n' m' := by
  rw [Coupling.shared, Coupling.shared, h.hasSideEffect_eq, h.readVariables_eq, h.propertyReads_eq,
    hm.readVariables_eq, hm.propertyReads_eq]

/-! Terms of conditions. -/

theorem operatorOf?_eq (h : s.Twins n n') : Terms.operatorOf? n = Terms.operatorOf? n' := by
  rw [Terms.operatorOf?, h.kind_eq, h.operatorKind?_eq, Terms.operatorOf?]

theorem chain (h : s.Twins n n') (op : Kind) :
    List.Forall₂ s.Twins (Terms.chain op n) (Terms.chain op n') := by
  have hlast : ∀ {m m'}, s.Twins m m' →
      List.Forall₂ s.Twins [m.unparenthesized] [m'.unparenthesized] := fun hm =>
    .cons hm.unparenthesized .nil
  fun_induction Terms.chain op n generalizing n' with
  | case1 n hn left right hleft hright ih =>
    obtain ⟨left', hleft', hl⟩ := h.left?.exists_of_eq_some hleft
    obtain ⟨right', hright', hr⟩ := h.right?.exists_of_eq_some hright
    rw [h.kind_eq, h.operatorKind?_eq] at hn
    rw [Terms.chain_of_operands hn hleft' hright']
    exact List.rel_append (ih hl) (hlast hr)
  | case2 n hn hnone =>
    have hnone' : ∀ left', n'.left? = some left' → ∀ right', n'.right? = some right' → False := by
      intro left' hleft' right' hright'
      rcases h.left?.eq_or with ⟨-, hl⟩ | ⟨left, _, hleft, -, -⟩
      · rw [hl] at hleft'
        cases hleft'
      · rcases h.right?.eq_or with ⟨-, hr⟩ | ⟨right, _, hright, -, -⟩
        · rw [hr] at hright'
          cases hright'
        · exact hnone left right hleft hright
    rw [Terms.chain_of_no_operands hnone']
    exact hlast h
  | case3 n hn =>
    rw [Terms.chain, if_neg (by rwa [← h.kind_eq, ← h.operatorKind?_eq])]
    exact hlast h

theorem operator_ofCondition_eq (h : s.Twins n n') :
    (Terms.ofCondition n).operator = (Terms.ofCondition n').operator := by
  rw [Terms.ofCondition, Terms.ofCondition, h.unparenthesized.operatorOf?_eq]
  split <;> rfl

theorem terms_ofCondition (h : s.Twins n n') :
    List.Forall₂ s.Twins (Terms.ofCondition n).terms (Terms.ofCondition n').terms := by
  rw [Terms.ofCondition, Terms.ofCondition, h.unparenthesized.operatorOf?_eq]
  split
  · exact h.unparenthesized.chain _
  · exact .cons h.unparenthesized .nil

/-! Replacing calls. -/

theorem ofCall? (h : s.Twins n n') : Option.Rel (fun c c' : ReplaceCall =>
    s.Twins c.search c'.search ∧ s.Twins c.replacement c'.replacement ∧
      s.Twins c.subject c'.subject) (ReplaceCall.ofCall? n) (ReplaceCall.ofCall? n') := by
  rw [ReplaceCall.ofCall?, ReplaceCall.ofCall?, h.kind_eq]
  split
  · have harguments := h.arguments
    generalize n.arguments = xs, n'.arguments = ys at harguments
    rcases harguments with _ | ⟨h₁, _ | ⟨h₂, _ | ⟨h₃, _ | ⟨h₄, h₅⟩⟩⟩⟩
    iterate 3 exact .none
    · exact .some ⟨h₁, h₂, h₃⟩
    · exact .none
  · exact .none

theorem isReplaceCall_eq (h : s.Twins n n') :
    ReplaceCall.isReplaceCall n = ReplaceCall.isReplaceCall n' := by
  rw [ReplaceCall.isReplaceCall, h.ofCall?.isSome_eq, h.isCallTo_eq, ReplaceCall.isReplaceCall]

theorem valueOf? (h : s.Twins n n') :
    Option.Rel s.Twins (ReplaceCall.valueOf? n) (ReplaceCall.valueOf? n') := by
  rw [ReplaceCall.valueOf?, ReplaceCall.valueOf?, h.kind_eq]
  have hvalue : ∀ {v v' : Option Node}, Option.Rel s.Twins v v' → Option.Rel s.Twins
      ((v.map Node.unparenthesized).filter ReplaceCall.isReplaceCall)
      ((v'.map Node.unparenthesized).filter ReplaceCall.isReplaceCall) := fun hv =>
    (hv.map fun hc => hc.unparenthesized).filter fun hc => hc.isReplaceCall_eq
  refine hvalue ?_
  split
  · exact h.value?
  · exact h.childNodes.head?
  · exact .none

theorem repeatedLiteral?_eq (h : s.Twins n n') :
    ReplaceCall.repeatedLiteral? n = ReplaceCall.repeatedLiteral? n' := by
  have hliteral : ∀ {e e'}, s.Twins e e' →
      ((e.elementValue?.filter fun value => e.elementKey?.isNone && value.isStringLiteral).map
        fun value => Text.trim value.text) =
      ((e'.elementValue?.filter fun value => e'.elementKey?.isNone && value.isStringLiteral).map
        fun value => Text.trim value.text) := fun {e e'} he => by
    rcases he.elementValue?.eq_or with ⟨hv, hv'⟩ | ⟨v, v', hv, hv', htwins⟩
    · rw [hv, hv']
      rfl
    · have hnone : e.elementKey?.isNone = e'.elementKey?.isNone := by
        rw [← Option.not_isSome, he.elementKey?.isSome_eq, Option.not_isSome]
      rw [hv, hv', Option.filter_some, Option.filter_some, hnone, htwins.isStringLiteral_eq]
      split
      next hstring =>
        rw [Bool.and_eq_true, ← htwins.isStringLiteral_eq] at hstring
        rw [Option.map_some, Option.map_some, htwins.text_eq (by
          rw [ReplaceCall.kind_of_isStringLiteral hstring.2]; rfl)]
      next => rfl
  rw [ReplaceCall.repeatedLiteral?, ReplaceCall.repeatedLiteral?, h.elements.mapM_eq hliteral]

end Twins

/-! The classes of a file. -/

theorem scopeOf_eq (s : Spacing) :
    Hierarchy.scopeOf s.before.rootNode = Hierarchy.scopeOf s.after.rootNode := by
  have hfirst := (s.twins_rootNode.preorderOfKind .namespaceDecl rfl).head?
  rw [List.head?_filter, List.head?_filter] at hfirst
  rw [Hierarchy.scopeOf, Hierarchy.scopeOf]
  rcases hfirst.eq_or with ⟨hd, hd'⟩ | ⟨d, d', hd, hd', htwins⟩
  · rw [hd, hd']
  · have hname := htwins.map_text_firstOfKind? .declaredName rfl ClassName.normalize
    rw [hd, hd', Option.bind_some, Option.bind_some]
    cases hn : d.firstOfKind? .declaredName <;> cases hn' : d'.firstOfKind? .declaredName <;>
      simp_all

theorem importOf?_eq (h : s.Twins n n') : Hierarchy.importOf? n = Hierarchy.importOf? n' := by
  rw [Hierarchy.importOf?, Hierarchy.importOf?]
  rcases (h.firstOfKind? .declaredName rfl).eq_or with
    ⟨hd, hd'⟩ | ⟨d, d', hd, hd', htwins⟩
  · rw [hd, hd']
    exact h.map_text_firstOfKind? .nameRef rfl fun text =>
      (ClassName.short (ClassName.normalize text), ClassName.normalize text)
  · have hkind : d.kind = .declaredName :=
      beq_iff_eq.1 (List.find?_some (p := fun c : Node => c.kind == .declaredName) hd)
    rw [hd, hd']
    dsimp only
    rw [htwins.text_eq (by rw [hkind]; rfl)]
    exact h.map_text_firstOfKind? .nameRef rfl fun text =>
      (ClassName.normalize d'.text, ClassName.normalize text)

theorem importsOf_eq (s : Spacing) :
    Hierarchy.importsOf s.before.rootNode = Hierarchy.importsOf s.after.rootNode := by
  rw [Hierarchy.importsOf, Hierarchy.importsOf,
    (s.twins_rootNode.preorderOfKind .useItem rfl).filterMap_eq importOf?_eq]

theorem declsOf_eq (s : Spacing) (scope : String) :
    Hierarchy.declsOf s.before.rootNode scope = Hierarchy.declsOf s.after.rootNode scope := by
  have hclasses := s.twins_rootNode.descendants.filter_of_eq (p := (·.kind.isClassLike))
    (q := (·.kind.isClassLike)) fun hc => by rw [hc.kind_eq]
  rw [Hierarchy.declsOf, Hierarchy.declsOf]
  refine hclasses.filterMap_eq fun hc => ?_
  rw [hc.declaredName?_eq, hc.extendsNames_eq, hc.implementsNames_eq]

theorem ofTree_eq (s : Spacing) : Hierarchy.ofTree s.before = Hierarchy.ofTree s.after := by
  rw [Hierarchy.ofTree, Hierarchy.ofTree, Hierarchy.ofRoot, Hierarchy.ofRoot, s.scopeOf_eq,
    s.importsOf_eq, s.declsOf_eq]

end Spacing

end PhpLint
