import PhpLint.Proofs.Analysis.Repeats
import PhpLint.Proofs.Equivalence.Cost
import PhpLint.Proofs.IfConditions.Groups
import PhpLint.Proofs.Parse.Shapes

/-! Which checks may be repeated. A negation is looked through with the parentheses behind it, and
so is the equivalence of terms; the sides of a comparison are looked at as they stand. So a check is
exempt like the checks that are equivalent to it, but for those with a side in parentheses. -/

namespace PhpLint

namespace Node

variable {a b m n : Node}

theorem Kinded.of_mem (h : n.Kinded) (hm : m ∈ n.preorder) : m.Kinded := fun k hk =>
  h k (mem_preorder_trans hm hk)

theorem Kinded.of_child (h : n.Kinded) (hm : m ∈ n.children) : m.Kinded :=
  h.of_mem (mem_preorder_of_child hm (mem_preorder_self m))

theorem Kinded.isToken_eq (h : n.Kinded) : n.isToken = n.kind.isToken := h n (mem_preorder_self n)

theorem Kinded.token_eq_none (h : n.Kinded) (hkind : n.kind.isToken = false) : n.token = none := by
  simpa [isToken, hkind] using h.isToken_eq

theorem Kinded.isToken_of_isTrivia (h : n.Kinded) (htrivia : n.isTrivia = true) :
    n.isToken = true := by
  rw [h.isToken_eq]
  rw [isTrivia] at htrivia
  cases hkind : n.kind <;> first | rfl | (rw [hkind] at htrivia; cases htrivia)

/-- Two nodes that agree, their tokens and nodes being of the right kinds. -/
structure Alike (a b : Node) : Prop where
  agrees : Agrees false a b
  left : a.Kinded
  right : b.Kinded

/-- Two such nodes of one kind. -/
structure Matching (a b : Node) : Prop extends Alike a b where
  kind_eq : a.kind = b.kind

/-- In their parentheses nodes that are alike are of one kind. -/
theorem Alike.unparenthesized (h : Alike a b) : Matching a.unparenthesized b.unparenthesized := by
  have hkind := h.agrees.kind_unparenthesized_eq
  obtain ⟨⟨f, g, hagree, -⟩, ha, hb⟩ := h
  obtain ⟨f', heq⟩ := Code.exists_of_unparenthesized a f
  obtain ⟨g', heq'⟩ := Code.exists_of_unparenthesized b g
  rw [heq, heq'] at hagree
  exact ⟨⟨⟨f', g', hagree, nofun⟩, ha.of_mem a.unparenthesized_mem_preorder,
    hb.of_mem b.unparenthesized_mem_preorder⟩, hkind⟩

namespace Matching

/-- Nodes of one kind have one operator, and the nodes below them are alike one by one. -/
theorem composite (h : Matching a b) (hnode : a.kind.isToken = false) (hkind : a.kind ≠ .parenExpr ∧
    a.kind ≠ .literal ∧ a.kind ≠ .nameRef ∧ a.kind ≠ .arrayExpr) :
    a.operatorKind? = b.operatorKind? ∧ List.Forall₂ Alike a.childNodes b.childNodes := by
  obtain ⟨hoperator, hsolid⟩ := h.agrees.composite (h.left.token_eq_none hnode)
    (h.right.token_eq_none (h.kind_eq ▸ hnode)) h.kind_eq hkind
  have halike : List.Forall₂ Alike a.solidChildren b.solidChildren :=
    hsolid.and_mem.imp fun c d hcd => ⟨hcd.1.mono, h.left.of_child (List.mem_of_mem_filter hcd.2.1),
      h.right.of_child (List.mem_of_mem_filter hcd.2.2)⟩
  refine ⟨hoperator, ?_⟩
  rw [childNodes_eq_filter_solidChildren fun _ hc => (h.left.of_child hc).isToken_of_isTrivia,
    childNodes_eq_filter_solidChildren fun _ hc => (h.right.of_child hc).isToken_of_isTrivia]
  refine halike.filter_of_eq fun hcd => ?_
  rw [hcd.agrees.isToken_eq (fun htoken => .inl (hcd.left.isToken_eq ▸ htoken))
    fun htoken => .inl (hcd.right.isToken_eq ▸ htoken)]

theorem operand? (h : Matching a b) (hkind : a.kind = .unaryExpr) :
    Option.Rel Alike a.operand? b.operand? := by
  have hbelow := (h.composite (by rw [hkind]; rfl) (by rw [hkind]; decide)).2
  rw [Node.operand?, Node.operand?, ← h.kind_eq, hkind]
  exact hbelow.getElem? 0

theorem sides (h : Matching a b) (hkind : a.kind = .binaryExpr) :
    Option.Rel Alike a.left? b.left? ∧ Option.Rel Alike a.right? b.right? := by
  have hbelow := (h.composite (by rw [hkind]; rfl) (by rw [hkind]; decide)).2
  rw [left?, left?, right?, right?, ← h.kind_eq, hkind]
  exact ⟨hbelow.getElem? 0, hbelow.getElem? 1⟩

/-- Literals that agree are the same keyword. -/
theorem isKeywordLiteral_eq (h : Matching a b) (kinds : List Kind) :
    a.isKeywordLiteral kinds = b.isKeywordLiteral kinds := by
  by_cases hkind : a.kind = .literal
  · obtain ⟨f, g, hagree, -⟩ := h.agrees
    have hkind' : b.kind = .literal := h.kind_eq ▸ hkind
    rw [Code.of_literal hkind (h.left.token_eq_none (by rw [hkind]; rfl)),
      Code.of_literal hkind' (h.right.token_eq_none (by rw [hkind']; rfl)), Code.agree] at hagree
    rw [isKeywordLiteral, isKeywordLiteral, literalToken?, literalToken?, if_pos hkind,
      if_pos hkind']
    cases hc : a.solidChildren.head? with
    | none => rw [hc] at hagree; cases hagree
    | some c =>
      cases hd : b.solidChildren.head? with
      | none => rw [hc, hd, Code.literalsAgree.eq_def] at hagree; simp at hagree
      | some d =>
        have hword : c.kind = d.kind := by
          rw [hc, hd, Code.literalsAgree.eq_def] at hagree
          split at hagree
          next heq heq' => simp_all
          next => cases hagree
        rw [Option.any_some, Option.any_some, hword]
  · have hkind' : b.kind ≠ .literal := h.kind_eq ▸ hkind
    rw [isKeywordLiteral, isKeywordLiteral, literalToken?, literalToken?, if_neg hkind,
      if_neg hkind']

end Matching

end Node

theorem Terms.unparenthesized_of_mem_chain {op : Kind} {c n : Node} (h : n ∈ chain op c) :
    n.unparenthesized = n := by
  fun_induction chain op c with
  | case1 c hc left right hleft hright ih =>
    rcases List.mem_append.1 h with h | h
    · exact ih h
    · rw [List.mem_singleton.1 h, Node.unparenthesized_unparenthesized]
  | case2 | case3 => rw [List.mem_singleton.1 h, Node.unparenthesized_unparenthesized]

/-- Terms stand without the parentheses around them. -/
theorem Terms.unparenthesized_of_mem {c n : Node} (h : n ∈ (ofCondition c).terms) :
    n.unparenthesized = n := by
  rw [ofCondition] at h
  split at h
  next => exact unparenthesized_of_mem_chain h
  next => rw [List.mem_singleton.1 h, Node.unparenthesized_unparenthesized]

namespace IfConditions

/-- What is left of a term once a negation is taken off it; nothing if it negates nothing. -/
def unnegated? (term : Node) : Option Node :=
  if term.kind = .unaryExpr ∧ term.operatorKind? = some .bang then
    term.operand?.map Node.unparenthesized
  else some term

def isTruth (n : Node) : Bool := n.isKeywordLiteral [.trueKw, .falseKw]

/-- What is compared with a truth value, the sides of the comparison being looked at `through`
something. What is no such comparison stands for itself. -/
def besideTruth (through : Node → Node) (n : Node) : Node :=
  if n.kind = .binaryExpr then
    match n.left?, n.right? with
    | some left, some right =>
      if isTruth (through right) then through left
      else if isTruth (through left) then through right
      else n
    | _, _ => n
  else n

/-- Variables, constants and fields. -/
def isSubjectKind : Kind → Bool
  | .variableExpr | .nameRef | .literal | .propertyFetch | .staticPropertyFetch => true
  | _ => false

def exempts (through : Node → Node) (term : Node) : Bool :=
  ((unnegated? term).map (besideTruth through)).all (isSubjectKind ·.kind)

/-- A check of a variable, a constant or a field, in parentheses or not. -/
def isOpenCheck (term : Node) : Bool := exempts Node.unparenthesized term

/-- A side of the comparison is in parentheses. -/
def wrapsSide (term : Node) : Bool :=
  (unnegated? term).any fun n =>
    n.kind == .binaryExpr && (n.left?.toList ++ n.right?.toList).any (·.kind == .parenExpr)

variable {t : Tree} {a b n term : Node} {own : List Node}

theorem isBareCheck_eq_exempts (term : Node) :
    isBareCheck term = exempts (fun side => side) term := by
  have hsubject : bareSubject? term = (unnegated? term).map (besideTruth fun side => side) := rfl
  rw [isBareCheck, exempts, hsubject]
  cases (unnegated? term).map (besideTruth fun side => side) with
  | none => rfl
  | some n => rfl

theorem isTruth_of_paren (h : n.kind = .parenExpr) : isTruth n = false := by
  rw [isTruth, Node.isKeywordLiteral, Node.literalToken?, if_neg (by rw [h]; decide)]
  rfl

/-- Only parentheses around a side make a difference, and where they stand nothing is exempt. -/
theorem isSubjectKind_besideTruth (n : Node) :
    isSubjectKind (besideTruth (fun side => side) n).kind =
      (isSubjectKind (besideTruth Node.unparenthesized n).kind && !(n.kind == .binaryExpr &&
        (n.left?.toList ++ n.right?.toList).any (·.kind == .parenExpr))) := by
  by_cases hkind : n.kind = .binaryExpr
  · have hself : isSubjectKind n.kind = false := by rw [hkind]; rfl
    have hparen : isSubjectKind .parenExpr = false := rfl
    rw [besideTruth, besideTruth, if_pos hkind, if_pos hkind, beq_iff_eq.2 hkind]
    cases hleft : n.left? with
    | none => simp [hself]
    | some left =>
      cases hright : n.right? with
      | none => simp [hself]
      | some right =>
        by_cases hwl : left.kind = .parenExpr
        · simp only [isTruth_of_paren hwl]
          cases isTruth right <;> simp [hwl, hparen, hself]
        · by_cases hwr : right.kind = .parenExpr
          · simp only [isTruth_of_paren hwr]
            cases isTruth left <;> simp [hwr, hparen, hself]
          · simp [Node.unparenthesized_of_kind_ne hwl, Node.unparenthesized_of_kind_ne hwr, hwl,
              hwr]
  · rw [besideTruth, besideTruth, if_neg hkind, if_neg hkind, beq_eq_false_iff_ne.2 hkind,
      Bool.false_and, Bool.not_false, Bool.and_true]

theorem isBareCheck_eq (term : Node) :
    isBareCheck term = (isOpenCheck term && !wrapsSide term) := by
  rw [isBareCheck_eq_exempts, isOpenCheck, exempts, exempts, wrapsSide]
  cases unnegated? term with
  | none => rfl
  | some n => exact isSubjectKind_besideTruth n

/-! Terms that match. -/

open Node

theorem unnegated?_rel (h : Matching a b) :
    Option.Rel Matching (unnegated? a) (unnegated? b) := by
  by_cases hkind : a.kind = .unaryExpr
  · have hoperator := (h.composite (by rw [hkind]; rfl) (by rw [hkind]; decide)).1
    rw [unnegated?, unnegated?, ← h.kind_eq, ← hoperator]
    split
    · exact (h.operand? hkind).map Alike.unparenthesized
    · exact .some h
  · rw [unnegated?, unnegated?, if_neg fun hneg => hkind hneg.1,
      if_neg fun hneg => hkind (h.kind_eq.trans hneg.1)]
    exact .some h

theorem matching_besideTruth (h : Matching a b) :
    Matching (besideTruth unparenthesized a) (besideTruth unparenthesized b) := by
  by_cases hkind : a.kind = .binaryExpr
  · obtain ⟨hleft, hright⟩ := h.sides hkind
    rw [besideTruth, besideTruth, if_pos hkind, if_pos (h.kind_eq ▸ hkind)]
    rcases hleft.eq_or with ⟨hl, hl'⟩ | ⟨l, l', hl, hl', hls⟩
    · rw [hl, hl']
      exact h
    · rcases hright.eq_or with ⟨hr, hr'⟩ | ⟨r, r', hr, hr', hrs⟩
      · rw [hl, hl', hr, hr']
        exact h
      · rw [hl, hl', hr, hr']
        dsimp only
        rw [isTruth, isTruth, isTruth, isTruth, hls.unparenthesized.isKeywordLiteral_eq,
          hrs.unparenthesized.isKeywordLiteral_eq]
        split
        · exact hls.unparenthesized
        · split
          · exact hrs.unparenthesized
          · exact h
  · rw [besideTruth, besideTruth, if_neg hkind, if_neg (h.kind_eq ▸ hkind)]
    exact h

/-- Up to parentheses, terms that match are exempt alike. -/
theorem isOpenCheck_eq (h : Matching a b) : isOpenCheck a = isOpenCheck b := by
  rw [isOpenCheck, isOpenCheck, exempts, exempts]
  rcases (unnegated?_rel h).eq_or with ⟨ha, hb⟩ | ⟨x, y, ha, hb, hxy⟩
  · rw [ha, hb]
  · rw [ha, hb]
    exact congrArg isSubjectKind (matching_besideTruth hxy).kind_eq

theorem matching_of_same (ht : t.Linked) (hkinded : t.Kinded) {x y : NodeId}
    (ha : a ∈ (Terms.ofCondition (t.node x)).terms) (hb : b ∈ (Terms.ofCondition (t.node y)).terms)
    (h : same t a b = true) : Matching a b := by
  have hwhole : ∀ id, (t.node id).Kinded := fun id => by
    by_cases hid : id < t.size
    · exact hkinded.node ht hid
    · rw [Tree.node_of_size_le (Nat.le_of_not_lt hid)]
      intro m hm
      rw [preorder_eq, List.flatMap_nil, List.mem_singleton] at hm
      rw [hm]
      rfl
  have hmema := Terms.mem_preorder_of_mem_ofCondition ha
  have hmemb := Terms.mem_preorder_of_mem_ofCondition hb
  have hagrees : Agrees false a b := by
    rw [same, Tree.equivalent, Tree.equivalentAcross, Tree.code, Tree.code,
      ht.node_of_mem_preorder hmema, ht.node_of_mem_preorder hmemb] at h
    exact ⟨_, _, h, nofun⟩
  have halike : Alike a b := ⟨hagrees, (hwhole x).of_mem hmema, (hwhole y).of_mem hmemb⟩
  have hmatching := halike.unparenthesized
  rwa [Terms.unparenthesized_of_mem ha, Terms.unparenthesized_of_mem hb] at hmatching

/-- The terms of a statement are terms of conditions of the tree. -/
theorem node_of_mem_ownTerms (ht : t.Linked) {x : NodeId} (h : n ∈ ownTerms (t.node x)) :
    t.node n.id = n ∧ ∃ c, n ∈ (Terms.ofCondition (t.node c)).terms := by
  obtain ⟨c, hc, hn⟩ := List.mem_flatMap.1 h
  have hmem := mem_preorder_of_mem_conditions hc
  exact ⟨ht.node_of_mem_preorder
    (mem_preorder_trans hmem (Terms.mem_preorder_of_mem_ofCondition hn)),
    c.id, (ht.node_of_mem_preorder hmem).symm ▸ hn⟩

/-! What is reported in spite of that. -/

theorem isBareCheck_of_mem_leaders (h : a ∈ leaders t own) : isBareCheck a = false := by
  fun_induction leaders t own with
  | case1 => cases h
  | case2 term own hbare ih => exact ih h
  | case3 term own hbare ih =>
    simp only [List.unattach_filter, List.unattach_attach] at ih h
    rcases List.mem_cons.1 h with rfl | h
    · exact Bool.eq_false_iff.2 hbare
    · exact ih h

theorem exists_leader_of_mem_followers (h : b ∈ followers t own) :
    ∃ a ∈ leaders t own, same t b a = true := by
  fun_induction followers t own with
  | case1 => cases h
  | case2 term own hbare ih =>
    rw [leaders, if_pos hbare]
    exact ih h
  | case3 term own hbare ih =>
    simp only [List.unattach_filter, List.unattach_attach] at ih h
    rw [leaders, if_neg hbare]
    rcases List.mem_append.1 h with h | h
    · exact ⟨term, List.mem_cons_self, (List.mem_filter.1 h).2⟩
    · obtain ⟨a, ha, hsame⟩ := ih h
      exact ⟨a, List.mem_cons_of_mem _ ha, hsame⟩

/-- Whatever is reported stands behind a term that is not exempt, or is such a term. -/
theorem exists_leader_of_mem_duplicatedConditions {around : List Node} {f : Finding}
    (h : f ∈ duplicatedConditions t own around) : ∃ b ∈ own,
      f = report t messageDuplicateCondition .warning b ∧
      ∃ a ∈ own, isBareCheck a = false ∧ (a = b ∨ same t b a = true) := by
  have hsub := (leaders_append_followers_subperm t own).subset
  obtain ⟨b, hb, rfl⟩ := List.mem_map.1 ((duplicatedConditions_perm t own around).mem_iff.1 h)
  rcases List.mem_append.1 hb with hb | hb
  · obtain ⟨a, ha, hsame⟩ := exists_leader_of_mem_followers hb
    exact ⟨b, hsub (List.mem_append_right _ hb), rfl, a, hsub (List.mem_append_left _ ha),
      isBareCheck_of_mem_leaders ha, .inr hsame⟩
  · obtain ⟨outer, -, hanswer⟩ := List.mem_filterMap.1 hb
    have hleader := List.mem_of_find?_eq_some hanswer
    exact ⟨b, hsub (List.mem_append_left _ hleader), rfl, b, hsub (List.mem_append_left _ hleader),
      isBareCheck_of_mem_leaders hleader, .inl rfl⟩

/-- Of two equivalent terms the later one is reported unless the earlier one is exempt. -/
theorem duplicatedConditions_pair (h : same t b a = true) :
    duplicatedConditions t [a, b] [] = [] ↔ isBareCheck a = true := by
  rw [duplicatedConditions_nil, List.map_eq_nil_iff, followers]
  cases hbare : isBareCheck a with
  | true =>
    rw [if_pos rfl, followers, followers]
    simp [followers]
  | false => simp [h]

/-- Terms that are equivalent are the same checks up to parentheses. They differ in whether they are
exempt if one of them has a side in parentheses and the other has none; then and only then it
matters which of them comes first. And no check is reported in a statement that has no term with
such a side. -/
theorem isBareCheck_eq_unless_wrapsSide (ht : t.Made) :
    (∀ x y, ∀ a ∈ (Terms.ofCondition (t.node x)).terms,
      ∀ b ∈ (Terms.ofCondition (t.node y)).terms, t.equivalent a.id b.id = true →
        isOpenCheck a = isOpenCheck b ∧
        (isBareCheck a = isBareCheck b ↔ (isOpenCheck a = true → wrapsSide a = wrapsSide b)) ∧
        ((duplicatedConditions t [a, b] [] = [] ↔ duplicatedConditions t [b, a] [] = []) ↔
          (isOpenCheck a = true → wrapsSide a = wrapsSide b))) ∧
    ∀ x, ∀ b ∈ ownTerms (t.node x), isOpenCheck b = true →
      report t messageDuplicateCondition .warning b ∈
        duplicatedConditions t (ownTerms (t.node x)) (enclosingTerms t x) →
      ∃ a ∈ ownTerms (t.node x), isOpenCheck a = true ∧ wrapsSide a = true ∧
        (a = b ∨ t.equivalent b.id a.id = true) := by
  have hlinked := ht.sound_and_bare.1.linked
  have hopen : ∀ {x y a b}, a ∈ (Terms.ofCondition (t.node x)).terms →
      b ∈ (Terms.ofCondition (t.node y)).terms → same t a b = true →
        isOpenCheck a = isOpenCheck b := fun ha hb h =>
    isOpenCheck_eq (matching_of_same hlinked ht.kinded ha hb h)
  refine ⟨fun x y a ha b hb hsame => ?_, fun x b hb hcheck hreported => ?_⟩
  · have hcheck := hopen ha hb hsame
    have hbare : isBareCheck a = isBareCheck b ↔
        (isOpenCheck a = true → wrapsSide a = wrapsSide b) := by
      rw [isBareCheck_eq, isBareCheck_eq, ← hcheck]
      cases isOpenCheck a <;> simp
    refine ⟨hcheck, hbare, ?_⟩
    rw [duplicatedConditions_pair ((same_comm b a).trans hsame), duplicatedConditions_pair hsame,
      ← Bool.eq_iff_iff, hbare]
  · obtain ⟨b', hb', heq, a, ha, hexempt, hab⟩ :=
      exists_leader_of_mem_duplicatedConditions hreported
    obtain ⟨hnode, cb, hcb⟩ := node_of_mem_ownTerms hlinked hb
    obtain rfl : b = b' := by
      have hid : b.id = b'.id := congrArg (·.anchor.id) heq
      rw [← hnode, hid, (node_of_mem_ownTerms hlinked hb').1]
    have hcheck' : isOpenCheck a = true := by
      rcases hab with rfl | hsame
      · exact hcheck
      · obtain ⟨-, ca, hca⟩ := node_of_mem_ownTerms hlinked ha
        exact (hopen hcb hca hsame).symm.trans hcheck
    rw [isBareCheck_eq, hcheck', Bool.true_and, Bool.not_eq_false'] at hexempt
    exact ⟨a, ha, hcheck', hexempt, hab⟩

/-! A variable compared with a truth value in an `if` and in its `elseif`, once in parentheses. -/

open Analysis CascadeReplace

def comparisonPiece (side : Concrete) : Concrete :=
  Parse.piece "binary_expression" side.start (side.stop + 7)
    [side, signPiece "===" side.stop,
      rolePiece "right" "boolean" (side.stop + 3) (side.stop + 7) []]

def wrappedPiece (start : Nat) : Concrete :=
  rolePiece "left" "parenthesized_expression" start (start + 4)
    [signPiece "(" start, variablePiece "" (start + 1), signPiece ")" (start + 3)]

/-- A statement with an `elseif`, each asking one question about a variable. -/
def checkPieces (first second : Concrete) (between stop : Nat) : Concrete :=
  let statement := ifPiece 6 between (comparisonPiece first) []
  let condition := comparisonPiece second
  Parse.piece "program" 0 stop [Parse.piece "php_tag" 0 5 [],
    Parse.piece "if_statement" 6 stop (statement.children ++
      [rolePiece "alternative" "else_if_clause" between stop
        [signPiece "elseif" between,
          rolePiece "condition" "parenthesized_expression" (between + 6) (condition.stop + 1)
            [signPiece "(" (between + 6), condition, signPiece ")" condition.stop],
          blockPiece (condition.stop + 1) stop []]])]

def wrappedFirst : String := "<?php if(($a)===true)\x7b\x7delseif($a===true)\x7b\x7d"

def wrappedLast : String := "<?php if($a===true)\x7b\x7delseif(($a)===true)\x7b\x7d"

def checkGrammar : Grammar := fun source => some <|
  if source = wrappedFirst then checkPieces (wrappedPiece 9) (variablePiece "left" 30) 23 42
  else checkPieces (variablePiece "left" 9) (wrappedPiece 28) 21 42

/-- The second check is reported, since the first has its variable in parentheses. -/
theorem isBareCheck_eq_unless_wrapsSide_of_wrappedFirst :
    ∃ p, Parse.file checkGrammar wrappedFirst = .ok p ∧ p.errors = [] ∧
      p.tree.equivalent 12 24 = true ∧
      isOpenCheck (p.tree.node 12) = isOpenCheck (p.tree.node 24) ∧
      report p.tree messageDuplicateCondition .warning (p.tree.node 24) ∈
        duplicatedConditions p.tree (ownTerms (p.tree.node 30)) (enclosingTerms p.tree 30) ∧
      ∃ a ∈ ownTerms (p.tree.node 30), isOpenCheck a = true ∧ wrapsSide a = true ∧
        (a = p.tree.node 24 ∨ p.tree.equivalent 24 a.id = true) := by
  obtain ⟨p, hp, hcheck⟩ := exists_of_any (x := Parse.file checkGrammar wrappedFirst)
    (p := fun p => p.errors.isEmpty && p.tree.equivalent 12 24 &&
      (ownTerms (p.tree.node 30)).map Node.id == [12, 24] && isOpenCheck (p.tree.node 24) &&
      (duplicatedConditions p.tree (ownTerms (p.tree.node 30)) (enclosingTerms p.tree 30)).contains
        (report p.tree messageDuplicateCondition .warning (p.tree.node 24))) (by decide +kernel)
  simp only [Bool.and_eq_true, List.isEmpty_iff, beq_iff_eq, List.contains_iff_mem] at hcheck
  obtain ⟨⟨⟨⟨herrors, hequivalent⟩, hterms⟩, hopen⟩, hreported⟩ := hcheck
  have hmade : p.tree.Made := .parse hp
  have hterm : ∀ id ∈ [12, 24], p.tree.node id ∈ ownTerms (p.tree.node 30) ∧
      ∃ c, p.tree.node id ∈ (Terms.ofCondition (p.tree.node c)).terms := fun id hid => by
    obtain ⟨n, hn, rfl⟩ := List.mem_map.1 (hterms ▸ hid)
    obtain ⟨hnode, hcondition⟩ := node_of_mem_ownTerms hmade.sound_and_bare.1.linked hn
    rw [hnode]
    exact ⟨hn, hcondition⟩
  obtain ⟨-, x, hx⟩ := hterm 12 (by decide)
  obtain ⟨hown, y, hy⟩ := hterm 24 (by decide)
  have hids : ∀ id, (p.tree.node id).id = id := Tree.id_node p.tree
  obtain ⟨halike, hfound⟩ := isBareCheck_eq_unless_wrapsSide hmade
  refine ⟨p, hp, herrors, hequivalent,
    (halike x y _ hx _ hy (by rw [hids, hids]; exact hequivalent)).1, hreported, ?_⟩
  have hbehind := hfound 30 _ hown hopen hreported
  rwa [hids] at hbehind

/-- The two checks are equivalent, and only one of them is exempt. In one order the later one is
reported, in the other order nothing is. -/
theorem exists_isBareCheck_ne :
    (∃ p, Parse.file checkGrammar wrappedFirst = .ok p ∧ p.errors = [] ∧
      (ownTerms (p.tree.node 30)).map Node.id = [12, 24] ∧ p.tree.equivalent 12 24 = true ∧
      isBareCheck (p.tree.node 12) ≠ isBareCheck (p.tree.node 24) ∧
      ((new .standard).findings p.tree .unknown).map (fun f => (f.anchor.id, f.message)) =
        [(24, messageDuplicateCondition)]) ∧
    ∃ p, Parse.file checkGrammar wrappedLast = .ok p ∧ p.errors = [] ∧
      (ownTerms (p.tree.node 30)).map Node.id = [9, 24] ∧ p.tree.equivalent 9 24 = true ∧
      (new .standard).findings p.tree .unknown = [] := by
  refine ⟨?_, ?_⟩
  · obtain ⟨p, hp, hcheck⟩ := exists_of_any (x := Parse.file checkGrammar wrappedFirst)
      (p := fun p => p.errors.isEmpty && (ownTerms (p.tree.node 30)).map Node.id == [12, 24] &&
        p.tree.equivalent 12 24 && isBareCheck (p.tree.node 12) != isBareCheck (p.tree.node 24) &&
        ((new .standard).findings p.tree .unknown).map (fun f => (f.anchor.id, f.message)) ==
          [(24, messageDuplicateCondition)]) (by decide +kernel)
    simp only [Bool.and_eq_true, List.isEmpty_iff, beq_iff_eq, bne_iff_ne] at hcheck
    obtain ⟨⟨⟨⟨herrors, hterms⟩, hequivalent⟩, hbare⟩, hfindings⟩ := hcheck
    exact ⟨p, hp, herrors, hterms, hequivalent, hbare, hfindings⟩
  · obtain ⟨p, hp, hcheck⟩ := exists_of_any (x := Parse.file checkGrammar wrappedLast)
      (p := fun p => p.errors.isEmpty && (ownTerms (p.tree.node 30)).map Node.id == [9, 24] &&
        p.tree.equivalent 9 24 && ((new .standard).findings p.tree .unknown).isEmpty)
      (by decide +kernel)
    simp only [Bool.and_eq_true, List.isEmpty_iff, beq_iff_eq] at hcheck
    obtain ⟨⟨⟨herrors, hterms⟩, hequivalent⟩, hfindings⟩ := hcheck
    exact ⟨p, hp, herrors, hterms, hequivalent, hfindings⟩

end IfConditions

end PhpLint
