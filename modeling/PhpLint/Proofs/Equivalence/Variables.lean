import PhpLint.Equivalence
import PhpLint.Proofs.Tree.Expression

/-! Variables that compute the same have the same name, parentheses aside. -/

namespace PhpLint

namespace Code

variable {n : Node} {xs ys : List Code}

theorem ofOperand_eq (cs : List Node) : ofOperand cs = (cs.find? (!·.isToken)).map (of false) := by
  induction cs with
  | nil => rfl
  | cons c cs ih =>
    rw [ofOperand, List.find?_cons, ih]
    cases c.isToken <;> rfl

theorem of_paren (h : n.kind = .parenExpr) (folds : Bool) : of folds n =
    match n.operand? with
    | some inner => of false inner
    | none => match n.token with
      | some text => .token .parenExpr text
      | none => .composite .parenExpr n.operatorKind?
        (ofAll .parenExpr n.operatorKind? true n.children) := by
  rw [Node.operand?_eq_find? h]
  obtain ⟨id, kind, word, children⟩ := n
  cases h
  rw [of.eq_def]
  simp only [shapeOf, ofOperand_eq]
  cases children.find? (!·.isToken) with
  | none => cases word <;> rfl
  | some inner => rfl

theorem exists_of_unparenthesized (n : Node) (folds : Bool) :
    ∃ folds', of folds n = of folds' n.unparenthesized := by
  fun_induction Node.unparenthesized n generalizing folds with
  | case1 n hkind inner hinner ih =>
    rw [of_paren hkind, hinner]
    exact ih false
  | case2 n hkind hnone => exact ⟨folds, rfl⟩
  | case3 n hkind => exact ⟨folds, rfl⟩

theorem of_variable (hkind : n.kind = .variableExpr) (htoken : n.token = none) (folds : Bool) :
    of folds n = .composite .variableExpr n.operatorKind?
      (ofAll .variableExpr n.operatorKind? true n.children) := by
  obtain ⟨id, kind, word, children⟩ := n
  cases hkind
  cases htoken
  rw [of]
  rfl

/-- The text of a variable token. -/
def varWord? : Code → Option String
  | .token .varName text => some text
  | _ => none

theorem varWord?_of_agree {x y : Code} (h : agree x y = true) : varWord? x = varWord? y := by
  cases x <;> cases y <;> simp only [agree, Bool.false_eq_true] at h <;> try rfl
  rename_i k text l text'
  rw [Bool.and_eq_true, beq_iff_eq] at h
  obtain ⟨rfl, htext⟩ := h
  by_cases hk : k = .varName
  · subst hk
    have hagree : tokensAgree .varName text text' = (text == text') := rfl
    rw [hagree, beq_iff_eq] at htext
    rw [htext]
  · cases k <;> first | rfl | exact absurd rfl hk

theorem findSome?_varWord?_of_agreeAll (h : agreeAll xs ys = true) :
    xs.findSome? varWord? = ys.findSome? varWord? := by
  induction xs generalizing ys with
  | nil =>
    cases ys with
    | nil => rfl
    | cons y ys => cases h
  | cons x xs ih =>
    cases ys with
    | nil => cases h
    | cons y ys =>
      rw [agreeAll, Bool.and_eq_true] at h
      rw [List.findSome?_cons, List.findSome?_cons, varWord?_of_agree h.1, ih h.2]

/-- What is not a token has no token for a code. -/
theorem varWord?_of_node {n : Node} (htoken : n.token = none) (folds : Bool) :
    varWord? (of folds n) = none := by
  induction n using Node.induction generalizing folds with
  | mk id kind word children ih =>
    cases htoken
    by_cases hparen : kind = .parenExpr
    · subst hparen
      rw [of_paren rfl, Node.operand?_eq_find? rfl]
      cases hfind : children.find? (!·.isToken) with
      | none => rfl
      | some inner =>
        refine ih inner (List.mem_of_find?_eq_some hfind) ?_ false
        simpa [Node.isToken] using List.find?_some hfind
    · rw [of]
      cases kind <;> first | rfl | exact absurd rfl hparen

theorem varWord?_of (n : Node) (folds : Bool) :
    varWord? (of folds n) = if n.isToken && n.kind == .varName then n.token else none := by
  cases htoken : n.token with
  | none => rw [varWord?_of_node htoken, if_neg (by simp [Node.isToken, htoken])]
  | some text =>
    by_cases hparen : n.kind = .parenExpr
    · rw [of_paren hparen, Node.operand?_eq_find? hparen, if_neg (by simp [hparen])]
      cases hfind : n.children.find? (!·.isToken) with
      | none => rw [htoken]; rfl
      | some inner =>
        exact varWord?_of_node (by simpa [Node.isToken] using List.find?_some hfind) false
    · obtain ⟨id, kind, word, children⟩ := n
      cases htoken
      rw [of]
      cases kind <;> first | rfl | exact absurd rfl hparen

theorem findSome?_varWord?_ofAll (parent : Kind) (operator : Option Kind) (first : Bool)
    (cs : List Node) : (ofAll parent operator first cs).findSome? varWord? =
      (cs.find? fun c => c.isToken && c.kind == .varName).bind (·.token) := by
  induction cs generalizing first with
  | nil => rfl
  | cons c cs ih =>
    rw [ofAll, List.find?_cons]
    split
    next htrivia =>
      have hkind : (c.isToken && c.kind == .varName) = false := by
        rw [Bool.and_eq_false_iff, beq_eq_false_iff_ne]
        refine .inr fun hkind => ?_
        rw [Node.isTrivia, hkind] at htrivia
        cases htrivia
      rw [ih, hkind]
    next =>
      rw [List.findSome?_cons, varWord?_of]
      cases hword : c.isToken && c.kind == .varName with
      | false => exact ih _
      | true =>
        rw [Bool.and_eq_true, Node.isToken, Option.isSome_iff_exists] at hword
        obtain ⟨⟨text, htext⟩, -⟩ := hword
        rw [if_pos rfl, htext]
        exact htext.symm

end Code

/-- Nodes that compute the same: if one is a variable, so is the other inside its parentheses, and
of the same name. -/
theorem Node.variableName?_unparenthesized_of_agree {a b : Node} {name : String} {f g : Bool}
    (h : (Code.of f a).agree (Code.of g b) = true) (ha : a.token = none) (hb : b.token = none)
    (hname : a.variableName? = some name) : b.unparenthesized.variableName? = some name := by
  have hkind : a.kind = .variableExpr := by
    by_contra hne
    rw [variableName?, if_neg hne] at hname
    cases hname
  obtain ⟨g', hg⟩ := Code.exists_of_unparenthesized b g
  have hb' := token_unparenthesized hb
  rw [Code.of_variable hkind ha, hg] at h
  have hkind' : b.unparenthesized.kind = .variableExpr := by
    by_cases hparen : b.unparenthesized.kind = .parenExpr
    · rw [Code.of_paren hparen, operand?_unparenthesized hparen, hb'] at h
      simp [Code.agree] at h
    · generalize b.unparenthesized = m at h hb' hparen
      obtain ⟨id, kind, word, children⟩ := m
      cases hb'
      rw [Code.of] at h
      cases kind <;> first | rfl | exact absurd rfl hparen | simp [Code.shapeOf, Code.agree] at h
  rw [Code.of_variable hkind' hb', Code.agree] at h
  simp only [Bool.and_eq_true] at h
  have hwords := Code.findSome?_varWord?_of_agreeAll h.2
  rw [Code.findSome?_varWord?_ofAll, Code.findSome?_varWord?_ofAll] at hwords
  rw [variableName?, if_pos hkind, tokenOfKind?, hwords] at hname
  rw [variableName?, if_pos hkind', tokenOfKind?, hname]

end PhpLint
