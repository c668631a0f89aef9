import PhpLint.Proofs.Condition.Places
import PhpLint.Proofs.Tree.Building

/-! Conditions evaluated from left to right. An operand that settles the result keeps those behind it
from being evaluated; so evaluating a chain is associative, and its terms can be evaluated one after
the other whichever of them the operators take together. -/

namespace PhpLint

/-- What an evaluation yields, and what it has asked for the truth of, in order. -/
structure Outcome where
  value : Bool
  asked : List Node

namespace Outcome

/-- The second is evaluated unless the first yields the value that settles both. -/
def follow (settling : Bool) (first second : Outcome) : Outcome :=
  if first.value = settling then first else ⟨second.value, first.asked ++ second.asked⟩

/-- Nothing evaluated, nothing settled. -/
def nothing (settling : Bool) : Outcome := ⟨!settling, []⟩

variable {settling : Bool}

theorem nothing_follow (a : Outcome) : follow settling (nothing settling) a = a := by
  rw [follow, if_neg (by simp [nothing])]
  rfl

theorem follow_nothing (a : Outcome) : follow settling a (nothing settling) = a := by
  rw [follow]
  split
  next => rfl
  next hvalue =>
    have hvalue' : (nothing settling).value = a.value := (Bool.eq_not_of_ne hvalue).symm
    rw [hvalue', nothing, List.append_nil]

theorem follow_assoc (a b c : Outcome) :
    follow settling (follow settling a b) c = follow settling a (follow settling b c) := by
  by_cases ha : a.value = settling
  · simp [follow, ha]
  · by_cases hb : b.value = settling
    · simp [follow, ha, hb]
    · simp [follow, ha, hb]

/-- One after the other. -/
def inTurn (settling : Bool) (outcomes : List Outcome) : Outcome :=
  outcomes.foldr (follow settling) (nothing settling)

theorem inTurn_singleton (a : Outcome) : inTurn settling [a] = a := follow_nothing a

theorem inTurn_append (as bs : List Outcome) :
    inTurn settling (as ++ bs) = follow settling (inTurn settling as) (inTurn settling bs) := by
  induction as with
  | nil => exact (nothing_follow _).symm
  | cons a as ih =>
    rw [List.cons_append, inTurn, List.foldr_cons, ← inTurn, ih, ← follow_assoc]
    rfl

end Outcome

/-- The truth value of an operand that settles the result of a logical operator. -/
def Kind.settling (op : Kind) : Bool := op == .pipe2 || op == .orKw

namespace Node

theorem sizeOf_right? {n c : Node} (h : n.right? = some c) : sizeOf c < sizeOf n := by
  unfold right? at h
  split at h
  · exact sizeOf_lt_of_childNodes (List.mem_of_getElem? h)
  · exact sizeOf_lt_of_childNodes (List.mem_of_getElem? h)
  · cases h

/-- Short-circuit evaluation. Parentheses count for nothing; what is neither in parentheses nor a
logical operation is true or not by `v`. -/
def outcome (v : Node → Bool) (n : Node) : Outcome :=
  if n.kind = .parenExpr then
    match _h : n.operand? with
    | some inner => outcome v inner
    | none => ⟨v n, [n]⟩
  else
    match Terms.operatorOf? n with
    | some op =>
      match _hl : n.left?, _hr : n.right? with
      | some left, some right => .follow op.settling (outcome v left) (outcome v right)
      | _, _ => ⟨v n, [n]⟩
    | none => ⟨v n, [n]⟩
termination_by sizeOf n
decreasing_by
  · exact sizeOf_operand? ‹_›
  · exact sizeOf_left? ‹_›
  · exact sizeOf_right? ‹_›

variable {v : Node → Bool} {n left right : Node} {op : Kind}

theorem outcome_of_operand (hkind : n.kind = .parenExpr) {inner : Node}
    (hinner : n.operand? = some inner) : n.outcome v = inner.outcome v := by
  rw [outcome, if_pos hkind]
  split
  next h => rw [Option.some.inj (h.symm.trans hinner)]
  next h => rw [h] at hinner; cases hinner

theorem outcome_of_operands (hop : Terms.operatorOf? n = some op) (hleft : n.left? = some left)
    (hright : n.right? = some right) :
    n.outcome v = .follow op.settling (left.outcome v) (right.outcome v) := by
  have hkind : n.kind = .binaryExpr := by
    by_contra hne
    rw [Terms.operatorOf?, if_neg hne] at hop
    cases hop
  rw [outcome, if_neg (by rw [hkind]; decide), hop]
  dsimp only
  split
  next hl hr =>
    rw [Option.some.inj (hl.symm.trans hleft), Option.some.inj (hr.symm.trans hright)]
  next hnone => exact (hnone left right hleft hright).elim

theorem outcome_unparenthesized (v : Node → Bool) (n : Node) :
    n.unparenthesized.outcome v = n.outcome v := by
  fun_induction unparenthesized n with
  | case1 n hkind inner hinner ih => rw [ih, outcome_of_operand hkind hinner]
  | case2 => rfl
  | case3 => rfl

end Node

namespace Terms

/-- The terms evaluated from left to right, the operator between them. -/
def outcome (v : Node → Bool) (ts : Terms) : Outcome :=
  .inTurn ts.isDisjunction (ts.terms.map (Node.outcome v))

variable {v : Node → Bool} {op : Kind}

theorem inTurn_chain (hop : op.isLogicalOp = true) (n : Node) :
    Outcome.inTurn op.settling ((chain op n).map (Node.outcome v)) = n.outcome v := by
  fun_induction chain op n with
  | case1 n hn left right hleft hright ih =>
    have hoperator : operatorOf? n = some op := by
      rw [operatorOf?, if_pos hn.1, hn.2, Option.filter_some, if_pos hop]
    rw [List.map_append, Outcome.inTurn_append, ih, List.map_singleton, Outcome.inTurn_singleton,
      Node.outcome_unparenthesized, Node.outcome_of_operands hoperator hleft hright]
  | case2 n =>
    rw [List.map_singleton, Outcome.inTurn_singleton, Node.outcome_unparenthesized]
  | case3 n =>
    rw [List.map_singleton, Outcome.inTurn_singleton, Node.outcome_unparenthesized]

/-- The terms yield what the condition yields, and ask for the same on the way. -/
theorem outcome_ofCondition (v : Node → Bool) (c : Node) :
    (ofCondition c).outcome v = c.outcome v := by
  rw [← Node.outcome_unparenthesized v c, outcome, ofCondition]
  cases hop : operatorOf? c.unparenthesized with
  | none => exact Outcome.inTurn_singleton _
  | some op =>
    have hlogical : op.isLogicalOp = true := by
      rw [operatorOf?] at hop
      split at hop
      · exact (Option.filter_eq_some_iff.1 hop).2
      · cases hop
    exact inTurn_chain hlogical _

theorem chain_ne_nil (op : Kind) (n : Node) : chain op n ≠ [] := by
  fun_induction chain op n with
  | case1 => exact List.append_ne_nil_of_right_ne_nil _ (List.cons_ne_nil _ _)
  | case2 => exact List.cons_ne_nil _ _
  | case3 => exact List.cons_ne_nil _ _

/-- An operator with two operands joins two terms at least. -/
theorem two_le_length_ofCondition {c : Node}
    (hop : (ofCondition c).operator ≠ none)
    (hoperands : ∀ n ∈ c.preorder, (operatorOf? n).isSome → n.left?.isSome ∧ n.right?.isSome) :
    2 ≤ (ofCondition c).terms.length := by
  have htop := hoperands _ c.unparenthesized_mem_preorder
  rw [ofCondition] at hop ⊢
  cases hoperator : operatorOf? c.unparenthesized with
  | none =>
    rw [hoperator] at hop
    exact absurd rfl hop
  | some op =>
    obtain ⟨hleft, hright⟩ := htop (by rw [hoperator]; rfl)
    obtain ⟨left, hleft⟩ := Option.isSome_iff_exists.1 hleft
    obtain ⟨right, hright⟩ := Option.isSome_iff_exists.1 hright
    have hn : c.unparenthesized.kind = .binaryExpr ∧
        c.unparenthesized.operatorKind? = some op := by
      rw [operatorOf?] at hoperator
      split at hoperator
      next hkind => exact ⟨hkind, Option.eq_some_of_filter_eq_some hoperator⟩
      next => cases hoperator
    have hfirst := List.length_pos_of_ne_nil (chain_ne_nil op left)
    dsimp only
    rw [chain_of_operands hn hleft hright, List.length_append, List.length_singleton]
    omega

/-- The terms of a condition are parts of it that have nothing in common, in the order in which they
stand there: one if there is no operator between them, and at least two if there is. Whatever is true
of what is no logical operation, evaluating them from left to right yields what the condition yields
and asks for the same things in the same order. -/
theorem splits_condition {t : Tree} {id : NodeId} (ht : t.Linked) (hid : id < t.size)
    (hoperands : ∀ n ∈ (t.node id).preorder, (operatorOf? n).isSome →
      n.left?.isSome ∧ n.right?.isSome) :
    ((ofCondition (t.node id)).operator = none ∧ (ofCondition (t.node id)).terms.length = 1 ∨
      (ofCondition (t.node id)).operator ≠ none ∧ 2 ≤ (ofCondition (t.node id)).terms.length) ∧
    ((ofCondition (t.node id)).terms.flatMap Node.ids).Sublist (t.node id).ids ∧
    (ofCondition (t.node id)).terms.Pairwise (fun a b => List.Disjoint a.ids b.ids) ∧
    ∀ v, (ofCondition (t.node id)).outcome v = (t.node id).outcome v := by
  have hsublist := flatMap_ids_ofCondition_sublist (t.node id)
  have hnodup := hsublist.nodup (ht.nodup_ids (ht.holds_node hid))
  refine ⟨?_, hsublist, (List.nodup_flatMap.1 hnodup).2, fun v => outcome_ofCondition v _⟩
  by_cases hop : (ofCondition (t.node id)).operator = none
  · exact .inl ⟨hop, length_of_operator_eq_none hop⟩
  · exact .inr ⟨hop, two_le_length_ofCondition hop hoperands⟩

/-- The condition `(($a || $b) && $c) && ($d)` of a file that holds nothing else. -/
def threeTerms : Tree := .ofEvents <|
  let var (name : String) : List BuildEvent :=
    [.start .variableExpr, .token .varName name, .finish]
  let paren (inner : List BuildEvent) : List BuildEvent :=
    [.start .parenExpr, .token .lParen "("] ++ inner ++ [.token .rParen ")", .finish]
  let binary (left : List BuildEvent) (op : Kind) (text : String) (right : List BuildEvent) :
      List BuildEvent := [.start .binaryExpr] ++ left ++ [.token op text] ++ right ++ [.finish]
  .start .sourceFile ::
    (binary (binary (paren (binary (var "$a") .pipe2 "||" (var "$b"))) .amp2 "&&" (var "$c"))
      .amp2 "&&" (paren (var "$d")) ++ [.finish])

/-- Three terms; the last one is not asked for where `$c` is false. -/
theorem splits_threeTerms :
    (ofCondition (threeTerms.node 19)).terms.map Node.text = ["$a||$b", "$c", "$d"] ∧
    (let result := (ofCondition (threeTerms.node 19)).outcome fun n => n.text != "$a" && n.text != "$c"
     result.value = false ∧ result.asked.map Node.text = ["$a", "$b", "$c"]) ∧
    2 ≤ (ofCondition (threeTerms.node 19)).terms.length ∧
    (ofCondition (threeTerms.node 19)).terms.Pairwise (fun a b => List.Disjoint a.ids b.ids) ∧
    ∀ v, (ofCondition (threeTerms.node 19)).outcome v = (threeTerms.node 19).outcome v := by
  have hid : 19 < threeTerms.size := by decide +kernel
  obtain ⟨hcount, -, hdisjoint, houtcome⟩ :=
    splits_condition (Tree.sound_ofEvents _).linked hid (by decide +kernel)
  refine ⟨by decide +kernel, by decide +kernel, ?_, hdisjoint, houtcome⟩
  exact (hcount.resolve_left fun h => absurd h.1 (by decide +kernel)).2

end Terms

end PhpLint
