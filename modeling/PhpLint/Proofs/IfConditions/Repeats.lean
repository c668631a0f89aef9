import PhpLint.Proofs.Condition.Places
import PhpLint.Proofs.IfConditions.Ambiguous

/-! What the checks of conditions report twice. The checks of one branch report every node once. Two
reports of one node have two sources only: an operator written as a word stands within the
conditions of two statements, or a term answers for two of the terms around it. -/

namespace PhpLint

open List

namespace Finding

/-- What tells findings apart: the rule, the anchor and the message. -/
def key (f : Finding) : String × Handle × String := (f.rule, f.anchor, f.message)

def Distinct (found : List Finding) : Prop := (found.map key).Nodup

instance (found : List Finding) : Decidable (Distinct found) :=
  inferInstanceAs (Decidable (found.map key).Nodup)

variable {xs ys : List Finding}

theorem distinct_nil : Distinct [] := List.nodup_nil

theorem distinct_append :
    Distinct (xs ++ ys) ↔ Distinct xs ∧ Distinct ys ∧ ∀ f ∈ xs, ∀ g ∈ ys, f.key ≠ g.key := by
  rw [Distinct, List.map_append, List.nodup_append]
  simp only [List.forall_mem_map]
  rfl

theorem distinct_flatMap {α : Type} {as : List α} {found : α → List Finding} :
    Distinct (as.flatMap found) ↔ (∀ a ∈ as, Distinct (found a)) ∧
      as.Pairwise fun a b => ∀ f ∈ found a, ∀ g ∈ found b, f.key ≠ g.key := by
  simp only [Distinct, List.Nodup, List.pairwise_map, List.pairwise_flatMap]

/-- Findings with different messages are told apart. -/
theorem key_ne_of_messages {messages more : List String} (hxs : ∀ f ∈ xs, f.message ∈ messages)
    (hys : ∀ g ∈ ys, g.message ∈ more) (hapart : ∀ m ∈ messages, m ∉ more) :
    ∀ f ∈ xs, ∀ g ∈ ys, f.key ≠ g.key := fun f hf g hg heq => by
  have hmessage : f.message = g.message := congrArg (·.2.2) heq
  exact hapart _ (hxs f hf) (hmessage ▸ hys g hg)

end Finding

/-- What repeats something stands in the list it was looked for in. -/
theorem repeated_subperm {α : Type} (same : α → α → Bool) (xs : List α) :
    repeated same xs <+~ xs := by
  fun_induction repeated same xs with
  | case1 => exact .refl _
  | case2 x xs ih =>
    simp only [List.unattach_filter, List.unattach_attach] at ih
    have hsplit := List.filter_append_perm (same · x) xs
    exact (((List.subperm_append_left _).2 ih).trans hsplit.subperm).trans
      (List.sublist_cons_self x xs).subperm

section Pairs

variable {α : Type} {xs : List α} {Q R S : α → α → Prop}

theorem pairwise_iff_of_pairwise (hxs : xs.Pairwise Q)
    (h : ∀ a ∈ xs, ∀ b ∈ xs, Q a b → (R a b ↔ S a b)) : xs.Pairwise R ↔ xs.Pairwise S :=
  ⟨fun hR => (hxs.and hR).imp_of_mem fun ha hb hab => (h _ ha _ hb hab.1).1 hab.2,
    fun hS => (hxs.and hS).imp_of_mem fun ha hb hab => (h _ ha _ hb hab.1).2 hab.2⟩

theorem pairwise_imp_iff {p : Prop} : (xs.Pairwise fun a b => p → R a b) ↔ (p → xs.Pairwise R) := by
  by_cases hp : p
  · simp only [hp, true_imp_iff]
  · simp only [hp, false_imp_iff, iff_true]
    exact List.pairwise_of_forall fun _ _ => trivial

end Pairs

namespace IfConditions

variable {ctx : RuleContext} {t : Tree} {ts : Terms} {n c : Node} {ns ms terms : List Node}
  {branch : NodeId} {f g : Finding} {found : List Finding} {message : String}

/-! One branch. -/

/-- Nodes of which each is listed once, all of them parts of what belongs to one branch. -/
structure Placed (t : Tree) (branch : NodeId) (ns : List Node) : Prop where
  nodup : (ns.map Node.id).Nodup
  owner : ∀ n ∈ ns, t.Owner n.id branch

theorem Placed.sublist (h : Placed t branch ns) (hsub : ms <+ ns) : Placed t branch ms :=
  ⟨h.nodup.sublist (hsub.map _), fun n hn => h.owner n (hsub.subset hn)⟩

theorem Placed.subperm (h : Placed t branch ns) (hsub : ms <+~ ns) : Placed t branch ms := by
  obtain ⟨ks, hperm, hks⟩ := hsub
  have hplaced := h.sublist hks
  exact ⟨(hperm.map Node.id).nodup_iff.1 hplaced.nodup,
    fun n hn => hplaced.owner n (hperm.mem_iff.2 hn)⟩

theorem placed_ofCondition (ht : t.Linked) (hc : Slots.Holds t.slots c)
    (hown : t.Owner c.id branch) : Placed t branch (Terms.ofCondition c).terms where
  nodup := (ht.nodup_ids hc).sublist
    ((Node.map_id_sublist_flatMap_ids _).trans (Terms.flatMap_ids_ofCondition_sublist c))
  owner _ hm := ht.owner_of_mem_ofCondition hc hown hm

/-- Parts of several terms of a condition. -/
theorem placed_flatMap (ht : t.Linked) (hc : Slots.Holds t.slots c) {parts : Node → List Node}
    (hterms : terms <+ (Terms.ofCondition c).terms)
    (hids : ∀ n ∈ terms, (parts n).map Node.id <+ n.ids)
    (howner : ∀ n ∈ terms, ∀ m ∈ parts n, t.Owner m.id branch) :
    Placed t branch (terms.flatMap parts) where
  nodup := by
    rw [List.map_flatMap]
    exact (ht.nodup_ids hc).sublist (((Sublist.flatMap_right _ hids).trans
      (hterms.flatMap _)).trans (Terms.flatMap_ids_ofCondition_sublist c))
  owner m hm := by
    obtain ⟨n, hn, hm⟩ := List.mem_flatMap.1 hm
    exact howner n hn m hm

section Checks

variable (ht : t.Linked) (hc : Slots.Holds t.slots c) (hown : t.Owner c.id branch)

include ht hc hown

theorem placed_operandCalls : Placed t branch (operandCalls (Terms.ofCondition c).terms) := by
  refine Placed.sublist ?_ List.filter_sublist
  refine placed_flatMap ht hc List.filter_sublist (fun n _ => ?_) fun n hn m hm => ?_
  · exact (Node.map_id_sublist_flatMap_ids _).trans (Node.flatMap_ids_sublist n.operands_sublist)
  · obtain ⟨hn, hkind⟩ := List.mem_filter.1 hn
    have hholds := hc.of_mem_preorder (Terms.mem_preorder_of_mem_ofCondition hn)
    exact ht.owner_of_mem hholds (by rw [eq_of_beq hkind]; rfl)
      (ht.owner_of_mem_ofCondition hc hown hn) (n.operands_sublist.subset hm)

theorem placed_negatedIsset :
    Placed t branch ((Terms.ofCondition c).terms.filterMap negatedIsset?) := by
  have hpart : ∀ {n m : Node}, negatedIsset? n = some m →
      n.kind = .unaryExpr ∧ ∃ inner ∈ n.children, inner.unparenthesized = m := fun {n m} h => by
    unfold negatedIsset? at h
    split at h
    next hkind =>
      obtain ⟨inner, hinner, hm⟩ := Option.map_eq_some_iff.1 (Option.filter_eq_some_iff.1 h).1
      exact ⟨hkind.1, inner, Node.mem_children_of_operand? hinner, hm⟩
    next => cases h
  rw [List.filterMap_eq_flatMap_toList]
  refine placed_flatMap ht hc (.refl _) (fun n _ => ?_) fun n hn m hm => ?_
  · cases hm : negatedIsset? n with
    | none => exact List.nil_sublist _
    | some m =>
      obtain ⟨-, inner, hinner, rfl⟩ := hpart hm
      exact List.singleton_sublist.2 ((inner.ids_unparenthesized_sublist.trans
        (Node.ids_sublist_of_mem hinner)).subset (Node.id_mem_ids _))
  · obtain ⟨hkind, inner, hinner, rfl⟩ := hpart (Option.mem_toList.1 hm)
    have hholds := hc.of_mem_preorder (Terms.mem_preorder_of_mem_ofCondition hn)
    exact ht.owner_unparenthesized (hholds.of_mem hinner) (ht.owner_of_mem hholds
      (by rw [hkind]; rfl) (ht.owner_of_mem_ofCondition hc hown hn) hinner)

end Checks

theorem addTest_perm (t : Tree) (subject : Node) (test : TypeTest) (gs : List TypeTests) :
    (addTest t subject test gs).flatMap TypeTests.tests ~ test :: gs.flatMap TypeTests.tests := by
  induction gs with
  | nil => exact .refl _
  | cons g gs ih =>
    rw [addTest]
    split
    · rw [List.flatMap_cons, List.flatMap_cons, List.append_assoc]
      exact List.perm_middle
    · rw [List.flatMap_cons, List.flatMap_cons]
      exact (ih.append_left _).trans List.perm_middle

/-- Every test goes into one group. -/
theorem foldl_addTest_perm (t : Tree) (tests : List (Node × TypeTest)) (gs : List TypeTests) :
    (tests.foldl (fun groups test => addTest t test.1 test.2 groups) gs).flatMap TypeTests.tests ~
      gs.flatMap TypeTests.tests ++ tests.map (·.2) := by
  induction tests generalizing gs with
  | nil =>
    rw [List.map_nil, List.append_nil]
    exact .refl _
  | cons test tests ih =>
    rw [List.foldl_cons, List.map_cons]
    refine (ih _).trans (((addTest_perm t test.1 test.2 gs).append_right _).trans ?_)
    exact List.perm_middle.symm

theorem typeTests_sublist (ctx : RuleContext) (terms : List Node) :
    ((typeTests ctx terms).map (·.2)).map TypeTest.term <+ terms := by
  refine Sublist.trans ?_ (List.filter_sublist (p := isInstanceof))
  rw [typeTests]
  induction terms.filter isInstanceof with
  | nil => exact .slnil
  | cons term rest ih =>
    cases htest : typeTest? ctx term with
    | none =>
      rw [List.filterMap_cons_none htest]
      exact ih.cons _
    | some test =>
      rw [List.filterMap_cons_some htest, List.map_cons, List.map_cons, term_of_typeTest? htest]
      exact ih.cons_cons _

/-- Reports about nodes of one branch, none of them made twice, under some of the messages. -/
structure Parted (t : Tree) (branch : NodeId) (messages : List String) (found : List Finding) :
    Prop where
  distinct : Finding.Distinct found
  message : ∀ f ∈ found, f.message ∈ messages
  owner : ∀ f ∈ found, t.Owner f.anchor.id branch

theorem distinct_map_report {severity : Severity} :
    Finding.Distinct (ns.map (report t message severity)) ↔ (ns.map Node.id).Nodup := by
  have hkeys : (ns.map (report t message severity)).map Finding.key =
      (ns.map Node.id).map fun x => (id, t.handle x, message) := by
    rw [List.map_map, List.map_map]
    rfl
  rw [Finding.Distinct, hkeys, List.nodup_map_iff fun x y hxy => ?_]
  exact congrArg (·.2.1.id) hxy

theorem Placed.parted (h : Placed t branch ns) (message : String) (severity : Severity) :
    Parted t branch [message] (ns.map (report t message severity)) where
  distinct := distinct_map_report.2 h.nodup
  message f hf := List.mem_singleton.2 (message_of_mem_map hf)
  owner f hf := by
    obtain ⟨n, hn, rfl⟩ := List.mem_map.1 hf
    exact h.owner n hn

theorem parted_nil {messages : List String} : Parted t branch messages [] :=
  ⟨Finding.distinct_nil, List.forall_mem_nil _, List.forall_mem_nil _⟩

theorem Parted.ite {messages : List String} (p : Prop) [Decidable p]
    (h : Parted t branch messages found) : Parted t branch messages (if p then found else []) := by
  split
  · exact h
  · exact parted_nil

theorem Parted.mono {messages more : List String} (h : Parted t branch messages found)
    (hsub : messages ⊆ more) : Parted t branch more found :=
  ⟨h.distinct, fun f hf => hsub (h.message f hf), h.owner⟩

theorem Parted.append {messages more : List String} {xs ys : List Finding}
    (hxs : Parted t branch messages xs) (hys : Parted t branch more ys)
    (hapart : ∀ m ∈ messages, m ∉ more) : Parted t branch (messages ++ more) (xs ++ ys) where
  distinct := Finding.distinct_append.2
    ⟨hxs.distinct, hys.distinct, Finding.key_ne_of_messages hxs.message hys.message hapart⟩
  message := List.forall_mem_append.2 ⟨fun f hf => List.mem_append_left _ (hxs.message f hf),
    fun f hf => List.mem_append_right _ (hys.message f hf)⟩
  owner := List.forall_mem_append.2 ⟨hxs.owner, hys.owner⟩

/-- What the checks of one branch say. -/
def branchMessages : List String :=
  [messageOrdering, messageWrap, messageDuplicateCall, messageIssetAnd, messageIssetOr,
    messageComplementary, messageAmbiguous, messageNullComparison]

theorem ordering_eq (ctx : RuleContext) (terms : List Node) : ∃ ns, ns <+ terms ∧
    ordering ctx terms = ns.map (report ctx.tree messageOrdering .weakWarning) := by
  refine ⟨((terms.zip terms.tail).filter fun pair => isMisplaced ctx pair.1 pair.2).map (·.2),
    ?_, by rw [List.map_map]; rfl⟩
  have htail : (terms.zip terms.tail).map (·.2) <+ terms := by
    rw [List.map_snd_zip (by rw [List.length_tail]; exact Nat.sub_le _ _)]
    exact List.tail_sublist terms
  exact (List.filter_sublist.map _).trans htail

theorem ambiguousInstanceof_eq (ctx : RuleContext) (terms : List Node) : ∃ ns, ns <+~ terms ∧
    ambiguousInstanceof ctx terms = ns.map (report ctx.tree messageAmbiguous .weakWarning) := by
  unfold ambiguousInstanceof
  dsimp only
  split
  · exact ⟨[], List.nil_subperm, rfl⟩
  set groups := ((terms.filter isInstanceof).filterMap (typeTest? ctx)).foldl
    (fun groups test => addTest ctx.tree test.1 test.2 groups) [] with hgroups
  let redundant : List TypeTest := groups.flatMap fun g =>
    if g.tests.length ≤ 1 then [] else g.tests.filter (isRedundant ctx g.tests)
  refine ⟨redundant.map TypeTest.term, ?_, ?_⟩
  · have hsub : redundant <+ groups.flatMap TypeTests.tests :=
      Sublist.flatMap_right _ fun g _ => by
        split
        · exact List.nil_sublist _
        · exact List.filter_sublist
    have hperm : groups.flatMap TypeTests.tests ~ (typeTests ctx terms).map (·.2) :=
      foldl_addTest_perm ctx.tree (typeTests ctx terms) []
    exact ((hsub.map _).subperm.trans (hperm.map _).subperm).trans
      (typeTests_sublist ctx terms).subperm
  · rw [List.map_map, List.map_flatMap]
    refine List.flatMap_congr fun g _ => ?_
    split <;> rfl

section Checks

variable (ht : ctx.tree.Linked) (hc : Slots.Holds ctx.tree.slots c)
  (hown : ctx.tree.Owner c.id branch)

include ht hc hown

theorem parted_ordering : Parted ctx.tree branch [messageOrdering]
    (ordering ctx (Terms.ofCondition c).terms) := by
  obtain ⟨ns, hns, heq⟩ := ordering_eq ctx (Terms.ofCondition c).terms
  exact heq ▸ ((placed_ofCondition ht hc hown).sublist hns).parted _ _

/-- A check that reports some of the terms. -/
theorem parted_filter (p : Node → Bool) (message : String) (severity : Severity) :
    Parted ctx.tree branch [message]
      (((Terms.ofCondition c).terms.filter p).map (report ctx.tree message severity)) :=
  ((placed_ofCondition ht hc hown).sublist List.filter_sublist).parted message severity

theorem parted_duplicatedCalls : Parted ctx.tree branch [messageDuplicateCall]
    (duplicatedCalls ctx.tree (Terms.ofCondition c).terms) := by
  rw [duplicatedCalls]
  split
  · exact parted_nil
  · exact ((placed_operandCalls ht hc hown).subperm (repeated_subperm _ _)).parted _ _

theorem parted_multipleIsset : Parted ctx.tree branch [messageIssetAnd, messageIssetOr]
    (multipleIsset ctx.tree (Terms.ofCondition c)) := by
  have hterms := placed_ofCondition ht hc hown
  rw [multipleIsset]
  split
  · exact ((hterms.sublist ((List.drop_sublist 1 _).trans List.filter_sublist)).parted _ _).mono
      (List.cons_subset_cons _ (List.nil_subset _))
  · split
    · exact (((placed_negatedIsset ht hc hown).sublist (List.drop_sublist 1 _)).parted _ _).mono
        (List.subset_cons_self _ _)
    · exact parted_nil

theorem parted_complementarity : Parted ctx.tree branch [messageComplementary]
    (complementarity ctx.tree (Terms.ofCondition c)) := by
  rw [complementarity]
  split
  · split
    · exact parted_nil
    · exact parted_filter ht hc hown _ _ _
  · exact parted_nil

theorem parted_ambiguousInstanceof : Parted ctx.tree branch [messageAmbiguous]
    (ambiguousInstanceof ctx (Terms.ofCondition c).terms) := by
  obtain ⟨ns, hns, heq⟩ := ambiguousInstanceof_eq ctx (Terms.ofCondition c).terms
  exact heq ▸ ((placed_ofCondition ht hc hown).subperm hns).parted _ _

/-- The checks of one branch report nothing twice. -/
theorem parted_branchFindings :
    Parted ctx.tree branch branchMessages (branchFindings ctx (Terms.ofCondition c)) := by
  have hwrap := (parted_filter ht hc hown (isConfusing ctx.tree) messageWrap .error).ite
    (ctx.options.reportMissingParentheses = true)
  have hcalls := (parted_duplicatedCalls ht hc hown).ite
    (ctx.options.reportDuplicateConditions = true)
  have hnull : Parted ctx.tree branch [messageNullComparison]
      (if ctx.options.reportIssetNullComparison then
        issetNullComparison ctx.tree (Terms.ofCondition c).terms else []) :=
    (parted_filter ht hc hown _ _ _).ite _
  have hfirst := ((parted_ordering ht hc hown).append hwrap (by decide)).append hcalls (by decide)
  have hmiddle := (hfirst.append (parted_multipleIsset ht hc hown) (by decide)).append
    (parted_complementarity ht hc hown) (by decide)
  exact (hmiddle.append (parted_ambiguousInstanceof ht hc hown) (by decide)).append hnull
    (by decide)

end Checks

/-! Operators that are words. -/

/-- An operation that is written with a word. -/
def isWorded (n : Node) : Bool :=
  n.kind == .binaryExpr && (n.operatorKind? == some .andKw || n.operatorKind? == some .orKw)

/-- What is said about an operator. -/
def wordMessage? : Kind → Option String
  | .andKw => some messageUseAnd
  | .orKw => some messageUseOr
  | _ => none

theorem wordMessage?_eq_some {kind : Kind} (h : wordMessage? kind = some message) :
    (kind = .andKw ∨ kind = .orKw) ∧ (message = messageUseAnd ∨ message = messageUseOr) := by
  unfold wordMessage? at h
  split at h
  · exact ⟨.inl rfl, .inl (Option.some.inj h).symm⟩
  · exact ⟨.inr rfl, .inr (Option.some.inj h).symm⟩
  · cases h

/-- What is reported of an operation. -/
def wordFinding? (t : Tree) (n : Node) : Option Finding :=
  if n.kind = .binaryExpr then
    n.operator?.bind fun op => (wordMessage? op.kind).map fun message =>
      report t message .warning op
  else none

theorem literalOperators_eq (t : Tree) (c : Node) :
    literalOperators t c = c.descendants.filterMap (wordFinding? t) := by
  have hone : ∀ (op : Node) (kind : Kind), (match kind with
      | .andKw => [report t messageUseAnd .warning op]
      | .orKw => [report t messageUseOr .warning op]
      | _ => []) = ((wordMessage? kind).map fun message => report t message .warning op).toList :=
    fun op kind => by cases kind <;> rfl
  rw [literalOperators, List.filterMap_eq_flatMap_toList]
  induction c.descendants with
  | nil => rfl
  | cons n ns ih =>
    rw [List.filter_cons, List.flatMap_cons, wordFinding?]
    by_cases hkind : n.kind = .binaryExpr
    · rw [if_pos (beq_iff_eq.2 hkind), if_pos hkind, List.flatMap_cons, ih]
      cases n.operator? with
      | none => rfl
      | some op => exact congrArg (· ++ _) (hone op op.kind)
    · rw [if_neg (by rwa [beq_iff_eq]), if_neg hkind, ih]
      rfl

theorem isWorded_of_wordFinding? (h : wordFinding? t n = some f) : isWorded n = true ∧
    ∃ op ∈ n.children, f.anchor.id = op.id ∧
      (f.message = messageUseAnd ∨ f.message = messageUseOr) := by
  unfold wordFinding? at h
  split at h
  next hkind =>
    obtain ⟨op, hop, h⟩ := Option.bind_eq_some_iff.1 h
    obtain ⟨message, hmessage, rfl⟩ := Option.map_eq_some_iff.1 h
    obtain ⟨hword, hsays⟩ := wordMessage?_eq_some hmessage
    have hmem : op ∈ n.children := by
      rw [Node.operator?, hkind] at hop
      exact List.mem_of_mem_filter (List.mem_of_find?_eq_some hop)
    refine ⟨?_, op, hmem, rfl, hsays⟩
    rcases hword with hword | hword <;> simp [isWorded, hkind, Node.operatorKind?, hop, hword]
  next => cases h

theorem exists_wordFinding? (t : Tree) (h : isWorded n = true) :
    ∃ f, wordFinding? t n = some f := by
  rw [isWorded, Bool.and_eq_true, Bool.or_eq_true, beq_iff_eq, beq_iff_eq, beq_iff_eq,
    Node.operatorKind?] at h
  rw [wordFinding?, if_pos h.1]
  cases hop : n.operator? with
  | none => simp [hop] at h
  | some op =>
    rw [hop, Option.map_some, Option.some.injEq, Option.some.injEq] at h
    rcases h.2 with hkind | hkind <;> simp [hkind, wordMessage?]

/-- An operator tells the operation. -/
theorem eq_of_wordFinding? (ht : t.Linked) {m : Node} (hn : Slots.Holds t.slots n)
    (hm : Slots.Holds t.slots m) (hf : wordFinding? t n = some f) (hg : wordFinding? t m = some g)
    (hanchor : f.anchor = g.anchor) : n = m := by
  obtain ⟨-, op, hop, hid, -⟩ := isWorded_of_wordFinding? hf
  obtain ⟨-, op', hop', hid', -⟩ := isWorded_of_wordFinding? hg
  have hsame : op.id = op'.id := hid.symm.trans ((congrArg Handle.id hanchor).trans hid')
  have hunder := hsame ▸ ht.under_of_mem hn hop
  rw [← ht.node_eq hn, ← ht.node_eq hm, hunder.parent_unique (ht.under_of_mem hm hop')]

theorem distinct_literalOperators (ht : t.Linked) (hc : Slots.Holds t.slots c) :
    Finding.Distinct (literalOperators t c) := by
  rw [literalOperators_eq, Finding.Distinct, List.Nodup, List.pairwise_map, List.pairwise_filterMap]
  have hids : c.descendants.Pairwise fun n m => n.id ≠ m.id :=
    (List.pairwise_map.1 (ht.nodup_ids hc)).sublist List.filter_sublist
  refine hids.imp_of_mem fun {n m} hn hm hne f hf g hg heq => hne ?_
  have hn := hc.of_mem_preorder (List.mem_of_mem_filter hn)
  have hm := hc.of_mem_preorder (List.mem_of_mem_filter hm)
  exact congrArg Node.id (eq_of_wordFinding? ht hn hm hf hg (congrArg (·.2.1) heq))

/-- What is said about operators. -/
def wordMessages : List String := [messageUseAnd, messageUseOr]

theorem mem_wordMessages (h : f ∈ literalOperators t c) : f.message ∈ wordMessages := by
  rcases message_of_mem_literalOperators h with h | h <;> rw [h] <;> decide

/-- Two conditions share an operation that is written with a word. -/
def ShareWord (c d : Node) : Prop := ∃ n ∈ c.descendants, isWorded n = true ∧ n.id ∈ d.ids

theorem shareWord_iff (ht : t.Linked) {d : Node} (hc : Slots.Holds t.slots c)
    (hd : Slots.Holds t.slots d) : ShareWord c d ↔
      ∃ f ∈ literalOperators t c, ∃ g ∈ literalOperators t d, f.key = g.key := by
  simp only [literalOperators_eq, List.mem_filterMap]
  constructor
  · rintro ⟨n, hn, hword, hid⟩
    obtain ⟨m, hm, hsame⟩ := List.mem_map.1 hid
    obtain ⟨f, hf⟩ := exists_wordFinding? t hword
    obtain ⟨hnc, hsolid⟩ := List.mem_filter.1 hn
    obtain rfl : m = n := by
      rw [← ht.node_eq (hc.of_mem_preorder hnc), ← ht.node_eq (hd.of_mem_preorder hm), hsame]
    exact ⟨f, ⟨m, hn, hf⟩, f, ⟨m, List.mem_filter.2 ⟨hm, hsolid⟩, hf⟩, rfl⟩
  · rintro ⟨f, ⟨n, hn, hf⟩, g, ⟨m, hm, hg⟩, hkey⟩
    have hmd := List.mem_of_mem_filter hm
    have hnm := eq_of_wordFinding? ht (hc.of_mem_preorder (List.mem_of_mem_filter hn))
      (hd.of_mem_preorder hmd) hf hg (congrArg (·.2.1) hkey)
    exact ⟨n, hn, (isWorded_of_wordFinding? hf).1, hnm ▸ List.mem_map_of_mem hmd⟩

/-! Terms that answer for others. -/

/-- The terms that the others are compared with: the first of those that are equivalent, bare
checks left out. -/
def leaders (t : Tree) : List Node → List Node
  | [] => []
  | term :: own =>
    if isBareCheck term then leaders t own else term :: leaders t (own.filter (!same t · term))
termination_by own => own.length
decreasing_by
  · simp
  · simp only [List.unattach_filter, List.unattach_attach, List.length_cons]
    exact Nat.lt_succ_of_le (List.length_filter_le ..)

/-- The terms that repeat a leader. -/
def followers (t : Tree) : List Node → List Node
  | [] => []
  | term :: own =>
    if isBareCheck term then followers t own
    else own.filter (same t · term) ++ followers t (own.filter (!same t · term))
termination_by own => own.length
decreasing_by
  · simp
  · simp only [List.unattach_filter, List.unattach_attach, List.length_cons]
    exact Nat.lt_succ_of_le (List.length_filter_le ..)

/-- No term leads and follows, and none follows twice. -/
theorem leaders_append_followers_subperm (t : Tree) (own : List Node) :
    leaders t own ++ followers t own <+~ own := by
  fun_induction leaders t own with
  | case1 =>
    rw [followers]
    exact .refl _
  | case2 term own hbare ih =>
    rw [followers, if_pos hbare]
    exact ih.trans (List.sublist_cons_self term own).subperm
  | case3 term own hbare ih =>
    simp only [List.unattach_filter, List.unattach_attach] at ih
    rw [followers, if_neg hbare, List.cons_append, List.subperm_cons]
    have hswap := List.perm_append_comm_assoc (leaders t (own.filter (!same t · term)))
      (own.filter (same t · term)) (followers t (own.filter (!same t · term)))
    exact (hswap.subperm.trans ((List.subperm_append_left _).2 ih)).trans
      (List.filter_append_perm (same t · term) own).subperm

/-- The term of a statement that answers for one of the terms around it: the first it is equivalent
to. -/
def answering? (t : Tree) (own : List Node) (outer : Node) : Option Node :=
  (leaders t own).find? (same t outer ·)

theorem filterMap_answering?_perm {term : Node} {own : List Node}
    (hterm : isBareCheck term = false) (around : List Node) :
    around.filterMap (answering? t (term :: own)) ~
      (around.filter (same t · term)).map (fun _ => term) ++
        (around.filter (!same t · term)).filterMap
          (answering? t (own.filter (!same t · term))) := by
  have hanswer : ∀ outer, answering? t (term :: own) outer =
      if same t outer term then some term
      else answering? t (own.filter (!same t · term)) outer := fun outer => by
    rw [answering?, leaders, if_neg (by rw [hterm]; exact Bool.false_ne_true), List.find?_cons]
    cases same t outer term <;> rfl
  refine ((List.filter_append_perm (same t · term) around).filterMap _).symm.trans ?_
  rw [List.filterMap_append]
  refine .of_eq (congrArg₂ _ ?_ ?_)
  · rw [← List.filterMap_eq_map]
    refine List.filterMap_congr fun outer houter => ?_
    rw [hanswer, if_pos (List.mem_filter.1 houter).2]
    rfl
  · refine List.filterMap_congr fun outer houter => ?_
    rw [hanswer, if_neg (by simpa using (List.mem_filter.1 houter).2)]

/-- What is reported: the terms that follow others, and those that answer for terms around, once for
every such term. -/
theorem duplicatedConditions_perm (t : Tree) (own around : List Node) :
    duplicatedConditions t own around ~
      (followers t own ++ around.filterMap (answering? t own)).map
        (report t messageDuplicateCondition .warning) := by
  fun_induction duplicatedConditions t own around with
  | case1 around =>
    have hnone : answering? t [] = fun _ => none := by
      funext outer
      rw [answering?, leaders]
      rfl
    rw [hnone, List.filterMap_none, followers]
    exact .refl _
  | case2 term own around hbare ih =>
    have hleaders : leaders t (term :: own) = leaders t own := by rw [leaders, if_pos hbare]
    rwa [followers, if_pos hbare, show answering? t (term :: own) = answering? t own by
      funext outer; rw [answering?, answering?, hleaders]]
  | case3 term own around hbare ih =>
    simp only [List.unattach_filter, List.unattach_attach] at ih
    rw [followers, if_neg hbare]
    have hanswers := @filterMap_answering?_perm t _ own (Bool.eq_false_iff.2 hbare) around
    have hsplit := hanswers.append_left
      (own.filter (same t · term) ++ followers t (own.filter (!same t · term)))
    refine ((ih.append_left _).trans ?_).trans (hsplit.map _).symm
    simp only [List.map_append, List.append_assoc, List.map_map]
    exact (List.perm_append_comm_assoc _ _ _).append_left _

/-- The terms of a statement, those of all its conditions. -/
def ownTerms (ifStmt : Node) : List Node :=
  (conditions ifStmt).flatMap fun c => (Terms.ofCondition c).terms

/-- No term of a statement answers for two of the terms around it. -/
def AnswersOnce (t : Tree) (ifStmt : NodeId) : Prop :=
  (((enclosingTerms t ifStmt).filterMap (answering? t (ownTerms (t.node ifStmt)))).map
    Node.id).Nodup

theorem distinct_duplicatedConditions_iff {own around : List Node}
    (hown : (own.map Node.id).Nodup) :
    Finding.Distinct (duplicatedConditions t own around) ↔
      ((around.filterMap (answering? t own)).map Node.id).Nodup := by
  obtain ⟨ks, hks, hsub⟩ := leaders_append_followers_subperm t own
  have hperm := duplicatedConditions_perm t own around
  have hids : ((leaders t own ++ followers t own).map Node.id).Nodup :=
    (hks.map _).nodup_iff.1 (hown.sublist (hsub.map _))
  rw [List.map_append, List.nodup_append] at hids
  rw [Finding.Distinct, (hperm.map _).nodup_iff, ← Finding.Distinct, distinct_map_report,
    List.map_append, List.nodup_append]
  refine ⟨fun h => h.2.1, fun h => ⟨hids.2.1, h, fun x hx y hy heq => ?_⟩⟩
  obtain ⟨n, hn, rfl⟩ := List.mem_map.1 hy
  obtain ⟨outer, -, hanswer⟩ := List.mem_filterMap.1 hn
  exact hids.2.2 _ (List.mem_map_of_mem (List.mem_of_find?_eq_some hanswer)) x hx heq.symm

theorem exists_term_of_mem_duplicatedConditions {own around : List Node}
    (h : f ∈ duplicatedConditions t own around) : ∃ term ∈ own, f.anchor.id = term.id := by
  have hsub := leaders_append_followers_subperm t own
  have hperm := duplicatedConditions_perm t own around
  obtain ⟨term, hterm, rfl⟩ := List.mem_map.1 (hperm.mem_iff.1 h)
  refine ⟨term, hsub.subset ?_, rfl⟩
  rcases List.mem_append.1 hterm with hterm | hterm
  · exact List.mem_append_right _ hterm
  · obtain ⟨outer, -, hanswer⟩ := List.mem_filterMap.1 hterm
    exact List.mem_append_left _ (List.mem_of_find?_eq_some hanswer)

/-! Statements. -/

/-- `branch` is a statement itself or one of its else-ifs. -/
def Heads (t : Tree) (ifStmt branch : NodeId) : Prop :=
  branch = ifStmt ∨ t.Under branch ifStmt ∧ t.kind branch = .elseIfClause

theorem Heads.unique {x y : NodeId} (hx : t.kind x = .ifStmt) (hy : t.kind y = .ifStmt)
    (h : Heads t x branch) (h' : Heads t y branch) : x = y := by
  rcases h with rfl | ⟨hu, hkind⟩ <;> rcases h' with rfl | ⟨hu', hkind'⟩
  · rfl
  · rw [hx] at hkind'
    cases hkind'
  · rw [hy] at hkind
    cases hkind
  · exact hu.parent_unique hu'

/-- A condition stands right under its branch. -/
theorem exists_branch (ht : t.Linked) (hn : Slots.Holds t.slots n) (hkind : n.kind = .ifStmt)
    (hc : c ∈ conditions n) : ∃ branch, Heads t n.id branch ∧ t.Under c.id branch ∧
      t.Owner c.id branch := by
  obtain ⟨m, hm, hc⟩ := List.mem_filterMap.1 hc
  have hmem := mem_children_of_condition? hc
  rcases List.mem_cons.1 hm with rfl | hm
  · have hu := ht.under_of_mem hn hmem
    exact ⟨m.id, .inl rfl, hu,
      .parent hu (by rw [show t.kind m.id = m.kind from hn.kind_eq, hkind]; rfl)⟩
  · obtain ⟨hmn, hclause⟩ := List.mem_filter.1 hm
    have hholds := hn.of_mem hmn
    have hclause : t.kind m.id = .elseIfClause := hholds.kind_eq.trans (eq_of_beq hclause)
    have hu := ht.under_of_mem hholds hmem
    exact ⟨m.id, .inr ⟨ht.under_of_mem hn hmn, hclause⟩, hu, .parent hu (by rw [hclause]; rfl)⟩

/-- Two conditions of a statement stand under two branches. -/
theorem pairwise_conditions (ht : t.Linked) (hn : Slots.Holds t.slots n) :
    (conditions n).Pairwise fun c d => ∀ branch, t.Under c.id branch → ¬ t.Under d.id branch := by
  rw [conditions, List.pairwise_filterMap]
  have hids : ((n :: n.elseIfs).map Node.id).Nodup := by
    refine (ht.nodup_ids hn).sublist ?_
    rw [List.map_cons, Node.ids_eq]
    exact ((Node.map_id_sublist_flatMap_ids _).trans (List.filter_sublist.flatMap _)).cons_cons _
  have hholds : ∀ m ∈ n :: n.elseIfs, Slots.Holds t.slots m :=
    List.forall_mem_cons.2 ⟨hn, fun m hm => hn.of_mem (List.mem_of_mem_filter hm)⟩
  refine (List.pairwise_map.1 hids).imp_of_mem
    fun {m k} hm hk hne c hc d hd branch hcb hdb => hne ?_
  have hm := ht.under_of_mem (hholds m hm) (mem_children_of_condition? hc)
  have hk := ht.under_of_mem (hholds k hk) (mem_children_of_condition? hd)
  exact (hm.parent_unique hcb).trans (hdb.parent_unique hk)

/-- What is found in one condition. -/
def conditionFindings (ctx : RuleContext) (c : Node) : List Finding :=
  branchFindings ctx (Terms.ofCondition c) ++
    if ctx.options.reportLiteralOperators then literalOperators ctx.tree c else []

theorem check_eq (ctx : RuleContext) (ifStmt : NodeId) : rule.check ctx ifStmt =
    (conditions (ctx.tree.node ifStmt)).flatMap (conditionFindings ctx) ++
      if ctx.options.reportDuplicateConditions then
        duplicatedConditions ctx.tree (ownTerms (ctx.tree.node ifStmt))
          (enclosingTerms ctx.tree ifStmt)
      else [] := by
  rw [rule]
  dsimp only
  rw [List.flatMap_map, List.flatMap_map]
  rfl

/-- What the findings of some conditions are: nodes of the branches, or operators of the conditions
and then all of these. -/
structure Accounted (ctx : RuleContext) (branches : NodeId → Prop) (cs : List Node)
    (found : List Finding) : Prop where
  holds : ∀ c ∈ cs, Slots.Holds ctx.tree.slots c
  owned_or_word : ∀ f ∈ found,
    (∃ branch, branches branch ∧ ctx.tree.Owner f.anchor.id branch ∧ f.message ∉ wordMessages) ∨
    ctx.options.reportLiteralOperators = true ∧ ∃ c ∈ cs, f ∈ literalOperators ctx.tree c
  word_mem : ctx.options.reportLiteralOperators = true →
    ∀ c ∈ cs, ∀ f ∈ literalOperators ctx.tree c, f ∈ found

/-- Findings about different branches have none in common but about operators. -/
theorem Accounted.forall_key_ne_iff {branches others : NodeId → Prop} {cs ds : List Node}
    {xs ys : List Finding} (ht : ctx.tree.Linked) (h : Accounted ctx branches cs xs)
    (h' : Accounted ctx others ds ys) (hapart : ∀ branch, branches branch → ¬ others branch) :
    (∀ f ∈ xs, ∀ g ∈ ys, f.key ≠ g.key) ↔
      (ctx.options.reportLiteralOperators = true → ∀ c ∈ cs, ∀ d ∈ ds, ¬ ShareWord c d) := by
  constructor
  · intro hne hon c hc d hd hshare
    obtain ⟨f, hf, g, hg, hkey⟩ := (shareWord_iff ht (h.holds c hc) (h'.holds d hd)).1 hshare
    exact hne f (h.word_mem hon c hc f hf) g (h'.word_mem hon d hd g hg) hkey
  · intro hwords f hf g hg hkey
    have hsame : f.message = g.message := congrArg (·.2.2) hkey
    have hanchor : f.anchor.id = g.anchor.id := congrArg (·.2.1.id) hkey
    rcases h.owned_or_word f hf with ⟨branch, hbranch, hfo, hfm⟩ | ⟨hon, c, hc, hf⟩ <;>
      rcases h'.owned_or_word g hg with ⟨other, hother, hgo, hgm⟩ | ⟨-, d, hd, hg⟩
    · exact hapart branch hbranch (hfo.unique (hanchor ▸ hgo) ▸ hother)
    · exact hfm (hsame ▸ mem_wordMessages hg)
    · exact hgm (hsame ▸ mem_wordMessages hf)
    · exact hwords hon c hc d hd
        ((shareWord_iff ht (h.holds c hc) (h'.holds d hd)).2 ⟨f, hf, g, hg, hkey⟩)

section Statement

variable (ht : ctx.tree.Linked) (hc : Slots.Holds ctx.tree.slots c)
  (hown : ctx.tree.Owner c.id branch)

include ht hc hown

theorem accounted_conditionFindings :
    Accounted ctx (· = branch) [c] (conditionFindings ctx c) where
  holds := List.forall_mem_singleton.2 hc
  owned_or_word f hf := by
    have hparted := parted_branchFindings ht hc hown
    rcases List.mem_append.1 hf with hf | hf
    · refine .inl ⟨branch, rfl, hparted.owner f hf, ?_⟩
      exact (by decide : ∀ m ∈ branchMessages, m ∉ wordMessages) _ (hparted.message f hf)
    · split at hf
      next hon => exact .inr ⟨hon, c, List.mem_singleton_self c, hf⟩
      next => cases hf
  word_mem hon := List.forall_mem_singleton.2 fun f hf => by
    rw [conditionFindings, if_pos hon]
    exact List.mem_append_right _ hf

theorem distinct_conditionFindings : Finding.Distinct (conditionFindings ctx c) := by
  have hparted := parted_branchFindings ht hc hown
  rw [conditionFindings]
  split
  · exact Finding.distinct_append.2 ⟨hparted.distinct, distinct_literalOperators ht hc,
      Finding.key_ne_of_messages hparted.message (fun _ => mem_wordMessages) (by decide)⟩
  · rw [List.append_nil]
    exact hparted.distinct

theorem message_of_mem_conditionFindings (hf : f ∈ conditionFindings ctx c) :
    f.message ∈ branchMessages ++ wordMessages := by
  rcases List.mem_append.1 hf with hf | hf
  · exact List.mem_append_left _ ((parted_branchFindings ht hc hown).message f hf)
  · split at hf
    · exact List.mem_append_right _ (mem_wordMessages hf)
    · cases hf

end Statement

section Check

variable (ht : ctx.tree.Linked) (hn : Slots.Holds ctx.tree.slots n) (hkind : n.kind = .ifStmt)

include ht hn hkind

/-- A condition is known with its branch. -/
theorem exists_branch_of_mem (hc : c ∈ conditions n) : Slots.Holds ctx.tree.slots c ∧
    ∃ branch, Heads ctx.tree n.id branch ∧ ctx.tree.Under c.id branch ∧
      ctx.tree.Owner c.id branch :=
  ⟨hn.of_mem_preorder (mem_preorder_of_mem_conditions hc), exists_branch ht hn hkind hc⟩

theorem nodup_ownTerms : ((ownTerms n).map Node.id).Nodup := by
  rw [ownTerms, List.map_flatMap, List.nodup_flatMap]
  refine ⟨fun c hc => ?_, (pairwise_conditions ht hn).imp_of_mem fun {c d} hc hd hapart => ?_⟩
  · obtain ⟨hholds, branch, -, -, hown⟩ := exists_branch_of_mem ht hn hkind hc
    exact (placed_ofCondition ht hholds hown).nodup
  · obtain ⟨hch, branch, -, hcu, hco⟩ := exists_branch_of_mem ht hn hkind hc
    obtain ⟨hdh, other, -, hdu, hdo⟩ := exists_branch_of_mem ht hn hkind hd
    intro x hx hx'
    obtain ⟨m, hm, rfl⟩ := List.mem_map.1 hx
    obtain ⟨k, hk, hid⟩ := List.mem_map.1 hx'
    have hm := ht.owner_of_mem_ofCondition hch hco hm
    have hk := ht.owner_of_mem_ofCondition hdh hdo hk
    exact hapart branch hcu (hm.unique (hid ▸ hk) ▸ hdu)

theorem distinct_conditions_iff :
    Finding.Distinct ((conditions n).flatMap (conditionFindings ctx)) ↔
      (ctx.options.reportLiteralOperators = true →
        (conditions n).Pairwise fun c d => ¬ ShareWord c d) := by
  rw [Finding.distinct_flatMap, ← pairwise_imp_iff]
  refine (and_iff_right fun c hc => ?_).trans
    (pairwise_iff_of_pairwise (pairwise_conditions ht hn) fun c hc d hd hapart => ?_)
  · obtain ⟨hholds, branch, -, -, hown⟩ := exists_branch_of_mem ht hn hkind hc
    exact distinct_conditionFindings ht hholds hown
  · obtain ⟨hch, branch, -, hcu, hco⟩ := exists_branch_of_mem ht hn hkind hc
    obtain ⟨hdh, other, -, hdu, hdo⟩ := exists_branch_of_mem ht hn hkind hd
    rw [(accounted_conditionFindings ht hch hco).forall_key_ne_iff ht
      (accounted_conditionFindings ht hdh hdo) fun b hb hb' => hapart b (hb ▸ hcu) (hb' ▸ hdu)]
    simp only [List.forall_mem_singleton]

theorem distinct_check_iff_of_holds : Finding.Distinct (rule.check ctx n.id) ↔
    (ctx.options.reportLiteralOperators = true →
      (conditions n).Pairwise fun c d => ¬ ShareWord c d) ∧
    (ctx.options.reportDuplicateConditions = true → AnswersOnce ctx.tree n.id) := by
  have hmessages : ∀ f ∈ (conditions n).flatMap (conditionFindings ctx),
      f.message ∈ branchMessages ++ wordMessages := fun f hf => by
    obtain ⟨c, hc, hf⟩ := List.mem_flatMap.1 hf
    obtain ⟨hholds, branch, -, -, hown⟩ := exists_branch_of_mem ht hn hkind hc
    exact message_of_mem_conditionFindings ht hholds hown hf
  rw [check_eq, ht.node_eq hn, ← distinct_conditions_iff ht hn hkind]
  split
  next hon =>
    have hown := nodup_ownTerms ht hn hkind
    have hrepeated : ∀ g ∈ duplicatedConditions ctx.tree (ownTerms n)
        (enclosingTerms ctx.tree n.id), g.message ∈ [messageDuplicateCondition] := fun _ hg =>
      List.mem_singleton.2 (message_of_mem_duplicatedConditions hg)
    rw [Finding.distinct_append, distinct_duplicatedConditions_iff hown, AnswersOnce, ht.node_eq hn]
    exact and_congr_right fun _ => ⟨fun h _ => h.1, fun h =>
      ⟨h hon, Finding.key_ne_of_messages hmessages hrepeated (by decide)⟩⟩
  next hoff => rw [List.append_nil, and_iff_left fun hon => absurd hon hoff]

theorem accounted_check :
    Accounted ctx (Heads ctx.tree n.id) (conditions n) (rule.check ctx n.id) where
  holds c hc := (exists_branch_of_mem ht hn hkind hc).1
  owned_or_word f hf := by
    rw [check_eq, ht.node_eq hn] at hf
    rcases List.mem_append.1 hf with hf | hf
    · obtain ⟨c, hc, hf⟩ := List.mem_flatMap.1 hf
      obtain ⟨hholds, branch, hheads, -, hown⟩ := exists_branch_of_mem ht hn hkind hc
      rcases (accounted_conditionFindings ht hholds hown).owned_or_word f hf with
        ⟨_, rfl, howner, hm⟩ | ⟨hon, d, hd, hf⟩
      · exact .inl ⟨_, hheads, howner, hm⟩
      · exact .inr ⟨hon, c, hc, List.mem_singleton.1 hd ▸ hf⟩
    · split at hf
      next =>
        obtain ⟨term, hterm, hanchor⟩ := exists_term_of_mem_duplicatedConditions hf
        obtain ⟨c, hc, hterm⟩ := List.mem_flatMap.1 hterm
        obtain ⟨hholds, branch, hheads, -, hown⟩ := exists_branch_of_mem ht hn hkind hc
        refine .inl ⟨branch, hheads, hanchor ▸ ht.owner_of_mem_ofCondition hholds hown hterm, ?_⟩
        rw [message_of_mem_duplicatedConditions hf]
        decide
      next => cases hf
  word_mem hon c hc f hf := by
    obtain ⟨hholds, branch, -, -, hown⟩ := exists_branch_of_mem ht hn hkind hc
    have hmem := (accounted_conditionFindings ht hholds hown).word_mem hon c
      (List.mem_singleton_self c) f hf
    rw [check_eq, ht.node_eq hn]
    exact List.mem_append_left _ (List.mem_flatMap.2 ⟨c, hc, hmem⟩)

end Check

section Names

variable {x y : NodeId} (ht : ctx.tree.Linked) (hx : x < ctx.tree.size)
  (hkx : ctx.tree.kind x = .ifStmt)

include ht hx hkx

/-- The findings at one statement are told apart but for operators that two of its conditions share
and for terms that answer twice. -/
theorem distinct_check_iff : Finding.Distinct (rule.check ctx x) ↔
    (ctx.options.reportLiteralOperators = true →
      (conditions (ctx.tree.node x)).Pairwise fun c d => ¬ ShareWord c d) ∧
    (ctx.options.reportDuplicateConditions = true → AnswersOnce ctx.tree x) := by
  have hnode := distinct_check_iff_of_holds ht (ht.holds_node hx)
    ((Tree.kind_node ctx.tree x).trans hkx)
  rwa [Tree.id_node] at hnode

/-- Two statements have no finding in common but about operators. -/
theorem check_apart_iff (hy : y < ctx.tree.size) (hky : ctx.tree.kind y = .ifStmt) (hne : x ≠ y) :
    (∀ f ∈ rule.check ctx x, ∀ g ∈ rule.check ctx y, f.key ≠ g.key) ↔
      (ctx.options.reportLiteralOperators = true →
        ∀ c ∈ conditions (ctx.tree.node x), ∀ d ∈ conditions (ctx.tree.node y),
          ¬ ShareWord c d) := by
  have hatx := accounted_check ht (ht.holds_node hx) ((Tree.kind_node ctx.tree x).trans hkx)
  have haty := accounted_check ht (ht.holds_node hy) ((Tree.kind_node ctx.tree y).trans hky)
  rw [Tree.id_node] at hatx haty
  exact hatx.forall_key_ne_iff ht haty fun _ hheads hheads' =>
    hne (hheads.unique hkx hky hheads')

end Names

end IfConditions

end PhpLint
