import PhpLint.Proofs.Equivalence.Variables
import PhpLint.Proofs.ReplaceCall.Simplifying

/-! Two calls in a row, as the rule sees them: which nodes it looks at, what it asks of them, and
nothing else. Operators, labels and other uses of the variable are not asked about. -/

namespace PhpLint

namespace CascadeReplace

/-- The statement before the one of `node` assigns the result of a call to a variable, and `node`
assigns to the same variable, or returns, the result of a call whose subject is that variable. -/
structure Cascade (t : Tree) (node : NodeId) where
  statement : NodeId
  previous : NodeId
  assignment : Node
  earlierCall : Node
  laterCall : Node
  earlier : ReplaceCall
  later : ReplaceCall
  /-- What the previous statement assigns to. -/
  carrier : Node
  /-- What `node` assigns to; the subject again for a `return`. -/
  storage : Node
  name : String
  statement_eq : statement? t node = some statement
  previous_eq : t.previousStatement? statement = some previous
  previous_kind : t.kind previous = .exprStmt
  assignment_eq : (t.node previous).childNodes.head? = some assignment
  assignment_kind : assignment.kind = .assignExpr
  earlierCall_eq : ReplaceCall.valueOf? assignment = some earlierCall
  laterCall_eq : ReplaceCall.valueOf? (t.node node) = some laterCall
  earlier_eq : ReplaceCall.ofCall? earlierCall = some earlier
  later_eq : ReplaceCall.ofCall? laterCall = some later
  carrier_eq : assignment.target? = some carrier
  carrier_name : carrier.variableName? = some name
  subject_name : later.subject.variableName? = some name
  storage_eq : (if t.kind node = .assignExpr then (t.node node).target? else some later.subject) =
    some storage
  storage_same : t.equivalent carrier.id storage.id = true

variable {t : Tree} {node : NodeId} {ctx : RuleContext} {f : Finding}

/-- What the call goes through, whether it is assigned or returned. -/
theorem cascadedCall?_eq_bind (t : Tree) (node : NodeId) (subject : Node) :
    cascadedCall? t node subject = (previousAssignment? t node).bind fun assignment =>
      (ReplaceCall.valueOf? assignment).bind fun call =>
        assignment.target?.bind fun carrier =>
          carrier.variableName?.bind fun name =>
            subject.variableName?.bind fun subjectName =>
              if subjectName ≠ name then none
              else (if t.kind node = .assignExpr then (t.node node).target? else some subject).bind
                fun storage => if t.equivalent carrier.id storage.id then some call else none := by
  by_cases hkind : t.kind node = .assignExpr <;> simp [cascadedCall?, hkind]

theorem exists_cascade {call previous : Node} {parts : ReplaceCall}
    (hcall : ReplaceCall.valueOf? (t.node node) = some call)
    (hparts : ReplaceCall.ofCall? call = some parts)
    (h : cascadedCall? t node parts.subject = some previous) :
    ∃ c : Cascade t node, c.laterCall = call ∧ c.earlierCall = previous := by
  simp only [cascadedCall?_eq_bind, previousAssignment?, Option.bind_eq_some_iff,
    Option.filter_eq_some_iff, Option.ite_none_left_eq_some, beq_iff_eq,
    Option.ite_none_right_eq_some, Option.some.injEq] at h
  obtain ⟨assignment, ⟨statement, hstatement, before, ⟨hbefore, hkind⟩, hhead, hassign⟩, earlier,
    hearlier, carrier, hcarrier, name, hname, subjectName, hsubject, hsame, storage, hstorage,
    hequivalent, rfl⟩ := h
  obtain rfl := not_not.1 hsame
  obtain ⟨-, hreplace⟩ := Option.filter_eq_some_iff.1 hearlier
  rw [ReplaceCall.isReplaceCall, Bool.and_eq_true, Option.isSome_iff_exists] at hreplace
  obtain ⟨⟨earlierParts, hearlierParts⟩, -⟩ := hreplace
  exact ⟨⟨statement, before, assignment, earlier, call, earlierParts, parts, carrier, storage,
    subjectName, hstatement, hbefore, hkind, hhead, hassign, hearlier, hcall, hearlierParts, hparts,
    hcarrier, hname, hsubject, hstorage, hequivalent⟩, rfl, rfl⟩

namespace Cascade

theorem cascadedCall?_eq (c : Cascade t node) :
    cascadedCall? t node c.later.subject = some c.earlierCall := by
  simp only [cascadedCall?_eq_bind, previousAssignment?, Option.bind_eq_some_iff,
    Option.filter_eq_some_iff, Option.ite_none_left_eq_some, beq_iff_eq,
    Option.ite_none_right_eq_some]
  exact ⟨c.assignment, ⟨c.statement, c.statement_eq, c.previous, ⟨c.previous_eq, c.previous_kind⟩,
    c.assignment_eq, c.assignment_kind⟩, c.earlierCall, c.earlierCall_eq, c.carrier, c.carrier_eq,
    c.name, c.carrier_name, c.name, c.subject_name, not_not.2 rfl, c.storage, c.storage_eq,
    c.storage_same, rfl⟩

/-- What is reported of two calls in a row. -/
def finding (c : Cascade ctx.tree node) : Finding :=
  (Finding.anchored ctx.tree id c.laterCall.id messageCascading .warning).withFix
    (mergeFix ctx c.laterCall.id c.earlierCall.id)

end Cascade

/-- Exactly the calls in a row are reported as such. -/
theorem cascading_mem_check_iff : f ∈ rule.check ctx node ∧ f.message = messageCascading ↔
    ∃ c : Cascade ctx.tree node, f = c.finding := by
  constructor
  · rintro ⟨hf, hm⟩
    cases hcall : ReplaceCall.valueOf? (ctx.tree.node node) with
    | none => simp [rule, hcall] at hf
    | some call =>
      cases hparts : ReplaceCall.ofCall? call with
      | none => simp [rule, hcall, hparts] at hf
      | some parts =>
        simp only [rule, hcall, hparts, findings, List.mem_append] at hf
        -- the other two findings have messages of their own
        rcases hf with (hf | hf) | hf
        · obtain ⟨previous, hprevious, rfl⟩ := List.mem_map.1 hf
          obtain ⟨c, rfl, rfl⟩ := exists_cascade hcall hparts (Option.mem_toList.1 hprevious)
          exact ⟨c, rfl⟩
        · split at hf
          · rw [List.mem_singleton.1 hf] at hm
            simp [Finding.withFix, Finding.anchored, messageCascading, messageNesting] at hm
          · cases hf
        · obtain ⟨literal, -, rfl⟩ := List.mem_map.1 hf
          simp [Finding.withFix, Finding.anchored, messageCascading, messageSearch] at hm
  · rintro ⟨c, rfl⟩
    refine ⟨?_, rfl⟩
    simp only [rule, c.laterCall_eq, c.later_eq, findings, c.cascadedCall?_eq, Option.toList_some,
      List.map_cons, List.map_nil, List.mem_append]
    exact .inl (.inl (List.mem_singleton_self _))

namespace Cascade

theorem lt_size (c : Cascade t node) : node < t.size := by
  by_contra hnode
  have hslot := Tree.slot_of_size_le (Nat.le_of_not_lt hnode)
  have hkind : (t.node node).kind = .errorNode := by
    rw [Tree.kind_node, Tree.kind, hslot]
    rfl
  have hcall := c.laterCall_eq
  simp [ReplaceCall.valueOf?, hkind] at hcall

theorem previous_lt_size (c : Cascade t node) (ht : t.Linked) : c.previous < t.size := by
  obtain ⟨parent, -, hfound⟩ := Option.bind_eq_some_iff.1 c.previous_eq
  have hmem := List.mem_of_find?_eq_some (Option.filter_eq_some_iff.1 hfound).1
  exact ht.lt_size_of_mem (List.mem_of_mem_take (List.mem_reverse.1 hmem))

theorem mem_childNodes_of_target? {n m : Node} (h : n.target? = some m) : m ∈ n.childNodes := by
  rw [Node.target?] at h
  split at h
  · exact List.mem_of_getElem? h
  · cases h

theorem assignment_holds (c : Cascade t node) (ht : t.Linked) :
    Slots.Holds t.slots c.assignment :=
  (ht.holds_node (c.previous_lt_size ht)).of_mem
    (List.mem_filter.1 (List.mem_of_mem_head? c.assignment_eq)).1

/-- Both calls hand on their results in one and the same variable. -/
theorem storage_name (c : Cascade t node) (ht : t.Linked) :
    c.storage.unparenthesized.variableName? = some c.name := by
  have hstorage := c.storage_eq
  split at hstorage
  case isFalse =>
    rw [← Option.some.inj hstorage, Node.unparenthesized_of_variableName? c.subject_name]
    exact c.subject_name
  case isTrue =>
    obtain ⟨hcarrier, hcarrierNode⟩ :=
      List.mem_filter.1 (mem_childNodes_of_target? c.carrier_eq)
    obtain ⟨hchild, hchildNode⟩ := List.mem_filter.1 (mem_childNodes_of_target? hstorage)
    have hagree := c.storage_same
    rw [Tree.equivalent, Tree.equivalentAcross, Tree.code, Tree.code,
      ht.node_eq ((c.assignment_holds ht).of_mem hcarrier),
      ht.node_eq ((ht.holds_node c.lt_size).of_mem hchild)] at hagree
    exact Node.variableName?_unparenthesized_of_agree hagree
      (by simpa [Node.isToken] using hcarrierNode) (by simpa [Node.isToken] using hchildNode)
      c.carrier_name

end Cascade

end CascadeReplace

end PhpLint
