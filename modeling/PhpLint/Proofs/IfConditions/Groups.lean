import PhpLint.Proofs.IfConditions.Repeats

/-! What the search for duplicates leaves unreported. Equivalence need not be transitive, so there
are no classes to count on: what is left is one item for those that were found equivalent to it,
the first of them, and no two that are left are equivalent. -/

namespace PhpLint

open List

section Repeated

variable {α : Type} {same : α → α → Bool} {xs : List α} {b : α}

/-- Of two elements that repeat nothing the later one is not the same as the earlier. -/
theorem pairwise_of_notMem_repeated (same : α → α → Bool) (xs : List α) :
    xs.Pairwise fun a b => a ∉ repeated same xs → b ∉ repeated same xs → same b a = false := by
  fun_induction repeated same xs with
  | case1 => exact .nil
  | case2 x xs ih =>
    simp only [List.unattach_filter, List.unattach_attach] at ih
    simp only [List.mem_append, not_or]
    refine .cons (fun b hb _ hkept => ?_) ?_
    · simpa [hb] using hkept.1
    · have hopen : ∀ c ∈ xs, c ∉ xs.filter (same · x) → (!same c x) = true := by
        simp +contextual
      refine (List.pairwise_filter.1 ih).imp_of_mem fun {a b} ha hb h hna hnb => ?_
      exact h (hopen a ha hna.1) (hopen b hb hnb.1) hna.2 hnb.2

/-- What repeats something repeats an earlier element that repeats nothing itself. -/
theorem exists_of_mem_repeated (hxs : xs.Nodup) (hb : b ∈ repeated same xs) :
    ∃ a, [a, b] <+ xs ∧ a ∉ repeated same xs ∧ same b a = true := by
  fun_induction repeated same xs with
  | case1 => cases hb
  | case2 x xs ih =>
    simp only [List.unattach_filter, List.unattach_attach] at ih
    obtain ⟨hx, hxs⟩ := List.nodup_cons.1 hxs
    rcases List.mem_append.1 hb with hb | hb
    · obtain ⟨hmem, hsame⟩ := List.mem_filter.1 hb
      refine ⟨x, (List.singleton_sublist.2 hmem).cons_cons x, fun h => hx ?_, hsame⟩
      rcases List.mem_append.1 h with h | h
      · exact List.mem_of_mem_filter h
      · exact List.mem_of_mem_filter ((repeated_subperm _ _).subset h)
    · obtain ⟨a, hab, ha, hsame⟩ := ih (hxs.filter _) hb
      have hmem : a ∈ xs.filter (!same · x) := hab.subset List.mem_cons_self
      refine ⟨a, (hab.trans List.filter_sublist).cons x, fun h => ?_, hsame⟩
      rcases List.mem_append.1 h with h | h
      · simpa [(List.mem_filter.1 h).2] using (List.mem_filter.1 hmem).2
      · exact ha h

end Repeated

namespace IfConditions

variable {t : Tree} {items own : List Node} {b : Node} {message : String} {severity : Severity}

/-- What findings about some items leave: of equivalent ones the first stays unreported. -/
structure OneOfEach (t : Tree) (items : List Node) (finding : Node → Finding)
    (found : List Finding) : Prop where
  /-- Items without a finding are pairwise inequivalent. -/
  apart : items.Pairwise fun a b =>
    finding a ∉ found → finding b ∉ found → same t a b = false ∧ same t b a = false
  /-- An item with a finding is equivalent to an earlier one without. -/
  behind : ∀ b ∈ items, finding b ∈ found →
    ∃ a, [a, b] <+ items ∧ finding a ∉ found ∧ same t b a = true
  once : found.Nodup

theorem nodup_of_ids {ns : List Node} (h : (ns.map Node.id).Nodup) : ns.Nodup := h.of_map _

theorem mem_map_report {ns : List Node} (hids : (items.map Node.id).Nodup) (hns : ns ⊆ items)
    (hb : b ∈ items) :
    report t message severity b ∈ ns.map (report t message severity) ↔ b ∈ ns := by
  refine ⟨fun h => ?_, List.mem_map_of_mem⟩
  obtain ⟨a, ha, heq⟩ := List.mem_map.1 h
  have hid : a.id = b.id := congrArg (·.anchor.id) heq
  exact List.inj_on_of_nodup_map hids (hns ha) hb hid ▸ ha

theorem nodup_map_report {ns : List Node} (hids : (ns.map Node.id).Nodup) :
    (ns.map (report t message severity)).Nodup :=
  (distinct_map_report.2 hids).of_map _

/-- Reporting the repetitions in a list leaves one of each, whatever else is reported besides. -/
theorem oneOfEach_of_repeated {ns : List Node} (hids : (own.map Node.id).Nodup)
    (hitems : items <+ own) (hns : ns <+~ own)
    (hrepeated : ∀ n ∈ items, n ∈ ns ↔ n ∈ repeated (same t) items) :
    OneOfEach t items (report t message severity) (ns.map (report t message severity)) := by
  have hfound : ∀ n ∈ items, report t message severity n ∈ ns.map (report t message severity) ↔
      n ∈ repeated (same t) items := fun n hn =>
    (mem_map_report hids hns.subset (hitems.subset hn)).trans (hrepeated n hn)
  refine ⟨?_, fun b hb hreported => ?_, ?_⟩
  · refine (pairwise_of_notMem_repeated (same t) items).imp_of_mem fun {a b} ha hb h hna hnb => ?_
    rw [hfound a ha] at hna
    rw [hfound b hb] at hnb
    exact ⟨(same_comm a b).trans (h hna hnb), h hna hnb⟩
  · obtain ⟨a, hab, ha, hsame⟩ := exists_of_mem_repeated
      (nodup_of_ids (hids.sublist (hitems.map _))) ((hfound b hb).1 hreported)
    exact ⟨a, hab, fun h => ha ((hfound a (hab.subset List.mem_cons_self)).1 h), hsame⟩
  · obtain ⟨ks, hperm, hks⟩ := hns
    exact nodup_map_report ((hperm.map _).nodup_iff.1 (hids.sublist (hks.map _)))

/-- A bare check leads nobody and may follow somebody: leaving the bare checks out of the terms
leaves them out of those that follow. -/
theorem filter_followers (t : Tree) (own : List Node) :
    (followers t own).filter (!isBareCheck ·) =
      repeated (same t) (own.filter (!isBareCheck ·)) := by
  fun_induction followers t own with
  | case1 =>
    rw [List.filter_nil, repeated]
  | case2 term own hbare ih =>
    rw [ih, List.filter_cons_of_neg (by simpa using hbare)]
  | case3 term own hbare ih =>
    simp only [List.unattach_filter, List.unattach_attach] at ih
    rw [List.filter_append, ih, List.filter_cons_of_pos (by simpa using hbare), repeated,
      List.filter_filter, List.filter_filter, List.filter_filter, List.filter_filter]
    simp only [Bool.and_comm]

theorem duplicatedConditions_nil (t : Tree) (own : List Node) :
    duplicatedConditions t own [] =
      (followers t own).map (report t messageDuplicateCondition .warning) := by
  fun_induction followers t own with
  | case1 => rw [duplicatedConditions, List.map_nil]
  | case2 term own hbare ih => rw [duplicatedConditions, if_pos hbare, ih]
  | case3 term own hbare ih =>
    simp only [List.unattach_filter, List.unattach_attach] at ih
    rw [duplicatedConditions, if_neg hbare, List.filter_nil, List.filter_nil, ih, List.map_append,
      List.map_nil, List.append_nil]

/-- In every statement of a run the checks for duplicates leave one of each. For a condition of
several terms the items are the calls that its terms compare; for the statement they are its terms
but the bare checks. What is found in the terms of a statement besides is found for the terms around
it. -/
theorem one_of_each_duplicate {admits : Tree → NodeId → Prop} {x : NodeId}
    (hrun : Tree.Run admits t) (hx : x < t.size) (hkind : t.kind x = .ifStmt) :
    (∀ c ∈ conditions (t.node x), 2 ≤ (Terms.ofCondition c).terms.length →
      OneOfEach t (operandCalls (Terms.ofCondition c).terms)
        (report t messageDuplicateCall .warning)
        (duplicatedCalls t (Terms.ofCondition c).terms)) ∧
    OneOfEach t ((ownTerms (t.node x)).filter (!isBareCheck ·))
      (report t messageDuplicateCondition .warning)
      (duplicatedConditions t (ownTerms (t.node x)) []) ∧
    duplicatedConditions t (ownTerms (t.node x)) (enclosingTerms t x) ~
      duplicatedConditions t (ownTerms (t.node x)) [] ++
        ((enclosingTerms t x).filterMap (answering? t (ownTerms (t.node x)))).map
          (report t messageDuplicateCondition .warning) := by
  have ht := hrun.sound.linked
  have hn := ht.holds_node hx
  have hkind : (t.node x).kind = .ifStmt := (Tree.kind_node t x).trans hkind
  refine ⟨fun c hc htwo => ?_, ?_, ?_⟩
  · obtain ⟨branch, -, -, hown⟩ := exists_branch ht hn hkind hc
    have hholds := hn.of_mem_preorder (mem_preorder_of_mem_conditions hc)
    rw [duplicatedCalls, if_neg (Nat.not_lt_of_le htwo)]
    exact oneOfEach_of_repeated (placed_operandCalls ht hholds hown).nodup (.refl _)
      (repeated_subperm _ _) fun _ _ => .rfl
  · have hids : ((ownTerms (t.node x)).map Node.id).Nodup :=
      @nodup_ownTerms { (default : RuleContext) with tree := t } _ ht hn hkind
    have hfollowers : followers t (ownTerms (t.node x)) <+~ ownTerms (t.node x) :=
      (List.sublist_append_right _ _).subperm.trans (leaders_append_followers_subperm t _)
    rw [duplicatedConditions_nil]
    refine oneOfEach_of_repeated hids List.filter_sublist hfollowers fun n hn => ?_
    rw [← filter_followers, List.mem_filter, and_iff_left (List.mem_filter.1 hn).2]
  · rw [duplicatedConditions_nil, ← List.map_append]
    exact duplicatedConditions_perm t _ _

/-! A call compared with itself in an `if`, and again in its `elseif`. -/

open BuildEvent in
def callEvents : List BuildEvent :=
  [.start .callExpr, .start .nameRef, .token .ident "f", .finish, .start .argList,
    .token .lParen "(", .token .rParen ")", .finish, .finish]

def comparisonEvents : List BuildEvent :=
  [.start .binaryExpr] ++ callEvents ++ [.token .eq2 "=="] ++ callEvents ++ [.finish]

/-- `if (f() == f() && $a) elseif (f() == f())` -/
def comparedTwice : Tree :=
  .ofEvents ([.start .sourceFile, .start .ifStmt, .start .binaryExpr] ++ comparisonEvents
    ++ [.token .amp2 "&&", .start .variableExpr, .token .varName "$a", .finish, .finish,
      .start .elseIfClause] ++ comparisonEvents ++ [.finish, .finish, .finish])

/-- The second call of the `if` repeats the first, and the comparison of the `elseif` that of the
`if`. -/
theorem one_of_each_of_comparedTwice :
    33 < comparedTwice.size ∧ comparedTwice.kind 33 = .ifStmt ∧
      (∃ c ∈ conditions (comparedTwice.node 33), 2 ≤ (Terms.ofCondition c).terms.length ∧
        (duplicatedCalls comparedTwice (Terms.ofCondition c).terms).map (·.anchor.id) = [12] ∧
        OneOfEach comparedTwice (operandCalls (Terms.ofCondition c).terms)
          (report comparedTwice messageDuplicateCall .warning)
          (duplicatedCalls comparedTwice (Terms.ofCondition c).terms)) ∧
      (duplicatedConditions comparedTwice (ownTerms (comparedTwice.node 33)) []).map
        (·.anchor.id) = [31] ∧
      OneOfEach comparedTwice ((ownTerms (comparedTwice.node 33)).filter (!isBareCheck ·))
        (report comparedTwice messageDuplicateCondition .warning)
        (duplicatedConditions comparedTwice (ownTerms (comparedTwice.node 33)) []) := by
  have hx : 33 < comparedTwice.size := by decide +kernel
  have hkind : comparedTwice.kind 33 = .ifStmt := by decide +kernel
  have hcalls : ∃ c ∈ conditions (comparedTwice.node 33), 2 ≤ (Terms.ofCondition c).terms.length ∧
      (duplicatedCalls comparedTwice (Terms.ofCondition c).terms).map (·.anchor.id) = [12] := by
    decide +kernel
  have hterms : (duplicatedConditions comparedTwice (ownTerms (comparedTwice.node 33)) []).map
      (·.anchor.id) = [31] := by
    decide +kernel
  have hrun : Tree.Run (fun _ _ => False) comparedTwice := .built _
  obtain ⟨hone, hstatement, -⟩ := one_of_each_duplicate hrun hx hkind
  obtain ⟨c, hc, htwo, hids⟩ := hcalls
  exact ⟨hx, hkind, ⟨c, hc, htwo, hids, hone c hc htwo⟩, hterms, hstatement⟩

end IfConditions

end PhpLint
