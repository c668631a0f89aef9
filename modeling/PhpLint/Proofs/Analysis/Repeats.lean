import PhpLint.Proofs.Analysis.Filtering
import PhpLint.Proofs.IfConditions.Repeats
import PhpLint.Proofs.ReplaceCall.Outdated

/-! When an analysis says the same thing twice. Findings are told apart by rule, anchor and message.
Three things only make two of them agree: an operator written as a word within the conditions of two
branches, a term that answers for two of the terms around it, and two mocks that go to one variable
in one assignment. -/

namespace PhpLint

open List

variable {ctx : RuleContext} {t : Tree} {o : Options} {classes : ClassLookup} {f g : Finding}
  {node x y : NodeId} {r : Rule}

namespace Tree

theorem Sound.lt_size_of_mem_descendants (h : t.Sound) (hx : x ∈ t.descendants t.root) :
    x < t.size :=
  ((h.linked.mem_preorder h.root_lt_size).1 (List.mem_of_mem_filter hx)).lt_size h.root_lt_size

theorem Sound.nodup_descendants (h : t.Sound) : (t.descendants t.root).Nodup :=
  (h.linked.nodup_preorder h.root_lt_size).sublist List.filter_sublist

end Tree

/-- Different messages tell findings apart. -/
theorem Finding.distinct_of_messages {found : List Finding}
    (h : (found.map Finding.message).Nodup) : Finding.Distinct found := by
  refine List.Nodup.of_map (·.2.2) ?_
  rwa [List.map_map]

/-! Replacements. -/

theorem ReplaceCall.exists_child_of_valueOf? {n call : Node} (h : valueOf? n = some call) :
    n.kind.isPart = false ∧ ∃ value ∈ n.children, value.unparenthesized = call := by
  obtain ⟨value, hvalue, hcall⟩ := Option.map_eq_some_iff.1 (Option.filter_eq_some_iff.1 h).1
  split at hvalue
  case h_1 hkind =>
    rw [Node.value?, if_pos hkind] at hvalue
    exact ⟨by rw [hkind]; rfl, value, List.mem_of_mem_filter (List.mem_of_getElem? hvalue), hcall⟩
  case h_2 hkind =>
    exact ⟨by rw [hkind]; rfl, value, List.mem_of_mem_filter (List.mem_of_mem_head? hvalue), hcall⟩
  case h_3 => cases hvalue

namespace CascadeReplace

theorem messages_sublist (ctx : RuleContext) (node : NodeId) (call : Node) (parts : ReplaceCall) :
    (findings ctx node call parts).map Finding.message <+
      [messageCascading, messageNesting, messageSearch] := by
  have hone : ∀ {α : Type} (a : Option α) {finding : α → Finding} {message : String},
      (∀ x, (finding x).message = message) →
        (a.toList.map finding).map Finding.message <+ [message] := fun a _ _ h => by
    cases a with
    | none => exact List.nil_sublist _
    | some x => exact h x ▸ .refl _
  have hnesting : ∀ (p : Bool) {finding : Finding}, finding.message = messageNesting →
      (if p then [finding] else []).map Finding.message <+ [messageNesting] := fun p _ h => by
    cases p with
    | false => exact List.nil_sublist _
    | true => exact h ▸ .refl _
  rw [findings, List.map_append, List.map_append]
  change _ <+ [messageCascading] ++ [messageNesting] ++ [messageSearch]
  refine (Sublist.append ?_ ?_).append ?_
  · exact hone _ fun _ => rfl
  · exact hnesting _ rfl
  · exact hone _ fun _ => rfl

theorem distinct_check : Finding.Distinct (rule.check ctx node) := by
  rw [rule]
  dsimp only
  split
  · exact Finding.distinct_nil
  · split
    · exact Finding.distinct_of_messages
        ((by decide : [messageCascading, messageNesting, messageSearch].Nodup).sublist
          (messages_sublist ..))
    · exact Finding.distinct_nil

/-- What is reported belongs to the node where it is found. -/
theorem owner_of_mem_check (ht : ctx.tree.Linked) (hnode : node < ctx.tree.size)
    (h : f ∈ rule.check ctx node) : ctx.tree.Owner f.anchor.id node := by
  obtain ⟨call, parts, hcall, hparts, hf⟩ := cases_of_mem_check h
  obtain ⟨hpart, value, hvalue, hunwrapped⟩ := ReplaceCall.exists_child_of_valueOf? hcall
  have hholds := ht.holds_node hnode
  have hunder := ht.under_of_mem hholds hvalue
  rw [Tree.id_node] at hunder
  rw [Tree.kind_node] at hpart
  have hown : ctx.tree.Owner call.id node :=
    hunwrapped ▸ ht.owner_unparenthesized (hholds.of_mem hvalue) (.parent hunder hpart)
  have hcallHolds := hholds.of_mem_preorder (ReplaceCall.mem_preorder_of_valueOf? hcall)
  obtain ⟨hcallKind, harguments⟩ := ReplaceCall.arguments_of_ofCall? hparts
  have hargument : ∀ m ∈ call.arguments, ctx.tree.Owner m.id node := fun m hm => by
    rw [Node.arguments] at hm
    cases hlist : call.argList? with
    | none => simp [hlist] at hm
    | some list =>
      rw [hlist] at hm
      have hmem : list ∈ call.children := List.mem_of_find?_eq_some hlist
      have hkind := List.find?_some hlist
      have hlistOwn := ht.owner_of_mem hcallHolds (by rw [hcallKind]; rfl) hown hmem
      exact ht.owner_of_mem (hcallHolds.of_mem hmem) (by rw [eq_of_beq hkind]; rfl) hlistOwn
        (List.mem_of_mem_filter hm)
  rcases hf with ⟨_, -, rfl⟩ | ⟨-, rfl⟩ | ⟨_, -, rfl⟩
  · exact hown
  · exact hargument parts.subject (by simp [harguments])
  · exact hargument parts.search (by simp [harguments])

end CascadeReplace

theorem LoopAccumulation.distinct_check :
    Finding.Distinct (LoopAccumulation.rule.check ctx node) := by
  rw [rule]
  dsimp only
  split
  · exact List.nodup_singleton _
  · exact Finding.distinct_nil

/-! Mocks. -/

namespace UnusedMock

theorem distinct_check : Finding.Distinct (rule.check ctx node) := by
  rw [rule]
  dsimp only
  split
  · split
    · split
      · split
        · exact Finding.distinct_nil
        · exact List.nodup_singleton _
      · exact Finding.distinct_nil
    · exact Finding.distinct_nil
  · exact Finding.distinct_nil

/-- What is told about two calls can be told apart only if it is about two variables. -/
theorem eq_of_key_eq (hf : f ∈ rule.check ctx x) (hg : g ∈ rule.check ctx y)
    (hkey : f.key = g.key) : f = g := by
  obtain ⟨container, -, rfl⟩ := eq_of_mem_check hf
  obtain ⟨other, -, rfl⟩ := eq_of_mem_check hg
  have hid : container.id = other.id := congrArg (·.2.1.id) hkey
  rw [hid]

/-- No variable is reported for two calls. -/
def Apart (ctx : RuleContext) : Prop :=
  ((ctx.tree.descendants ctx.tree.root).filter (ctx.tree.kind · == .methodCallExpr)).Pairwise
    fun x y => ∀ f ∈ rule.check ctx x, f ∉ rule.check ctx y

/-- A variable gets a mock from the assignment that it is the target of. -/
theorem exists_assignment_of_container? {container : Node}
    (h : container? t x = some container) : ∃ assignment, t.Under x assignment ∧
      t.kind assignment = .assignExpr ∧ container.kind = .variableExpr ∧
      (t.node assignment).childNodes[0]? = some container := by
  unfold container? at h
  obtain ⟨assignment, hparent, h⟩ := Option.bind_eq_some_iff.1 h
  obtain ⟨hparent, hkind⟩ := Option.filter_eq_some_iff.1 hparent
  split at h
  · obtain ⟨htarget, hvariable⟩ := Option.filter_eq_some_iff.1 h
    rw [Node.target?, if_pos ((Tree.kind_node t assignment).trans (eq_of_beq hkind))] at htarget
    exact ⟨assignment, hparent, eq_of_beq hkind, eq_of_beq hvariable, htarget⟩
  · cases h

/-- Where an assignment has a target and a value and no more, the call is the value. -/
theorem exists_value_of_container? {container : Node} (ht : t.Linked)
    (hassign : ∀ a, t.kind a = .assignExpr → (t.childNodes a).length ≤ 2)
    (hsolid : t.isToken x = false) (hkind : t.kind x = .methodCallExpr)
    (h : container? t x = some container) :
    ∃ a, t.Under container.id a ∧ (t.childNodes a)[1]? = some x := by
  obtain ⟨a, hu, hassignment, hvariable, htarget⟩ := exists_assignment_of_container? h
  have hholds := ht.holds_node (ht.parent_lt_size hu)
  have hchild := List.mem_of_mem_filter (List.mem_of_getElem? htarget)
  have hnodes := Tree.childNodes_of_holds hholds
  have hunder := ht.under_of_mem hholds hchild
  rw [Tree.id_node] at hnodes hunder
  have hmem : x ∈ t.childNodes a := List.mem_filter.2 ⟨ht.mem_children.2 hu, by rw [hsolid]; rfl⟩
  obtain ⟨i, hi⟩ := List.mem_iff_getElem?.1 hmem
  -- the target is a variable, so the call is not the first of the two nodes
  have hne : i ≠ 0 := by
    rintro rfl
    rw [hnodes, List.getElem?_map, htarget] at hi
    have hcontainer : t.kind container.id = .variableExpr :=
      (hholds.of_mem hchild).kind_eq.trans hvariable
    rw [Option.some.inj hi, hkind] at hcontainer
    cases hcontainer
  have hlength := hassign a hassignment
  have hlt := (List.getElem?_eq_some_iff.1 hi).1
  obtain rfl : i = 1 := by omega
  exact ⟨a, hunder, hi⟩

/-- Then no variable is reported for two calls. -/
theorem apart_of_assignments (ht : ctx.tree.Sound)
    (hassign : ∀ a, ctx.tree.kind a = .assignExpr → (ctx.tree.childNodes a).length ≤ 2) :
    Apart ctx := by
  have hsolid : ∀ {x}, x ∈ ctx.tree.descendants ctx.tree.root → ctx.tree.isToken x = false :=
    fun hx => by simpa using (List.mem_filter.1 hx).2
  refine List.pairwise_filter.2
    (ht.nodup_descendants.imp_of_mem fun {x y} hx hy hne hkx hky f hf hg => hne ?_)
  obtain ⟨container, hcontainer, rfl⟩ := eq_of_mem_check hf
  obtain ⟨other, hother, heq⟩ := eq_of_mem_check hg
  have hid : container.id = other.id := congrArg (·.anchor.id) heq
  obtain ⟨a, hua, hxa⟩ := exists_value_of_container? ht.linked hassign (hsolid hx)
    (eq_of_beq hkx) hcontainer
  obtain ⟨b, hub, hyb⟩ := exists_value_of_container? ht.linked hassign (hsolid hy)
    (eq_of_beq hky) hother
  obtain rfl := hua.parent_unique (hid ▸ hub)
  exact Option.some.inj (hxa.symm.trans hyb)

end UnusedMock

namespace Analysis

/-- The conditions of a tree, of each statement and its else-ifs. -/
def conditions (t : Tree) : List Node :=
  ((t.descendants t.root).filter (t.kind · == .ifStmt)).flatMap fun x =>
    IfConditions.conditions (t.node x)

theorem ifConditions_mem : IfConditions.rule ∈ Rule.shipped := by simp [Rule.shipped]

theorem unusedMock_mem : UnusedMock.rule ∈ Rule.shipped := by simp [Rule.shipped]

theorem mem_visit : f ∈ (new o).visit t classes node ↔ ∃ r ∈ Rule.shipped,
    o.isEnabled r.id = true ∧ r.interests.contains (t.kind node) = true ∧
      f ∈ r.check ((new o).context t classes) node := by
  have hrules : (new o).rules = Rule.shipped.filter (o.isEnabled ·.id) := rfl
  rw [visit_eq, hrules, List.mem_flatMap]
  simp only [List.mem_filter, and_assoc]

theorem rule_eq_of_key_eq {s : Rule} (hr : r ∈ Rule.shipped) (hs : s ∈ Rule.shipped)
    (hf : f ∈ r.check ctx x) (hg : g ∈ s.check ctx y) (hkey : f.key = g.key) : r = s := by
  refine List.inj_on_of_nodup_map Rule.shipped_ids_nodup hr hs ?_
  rw [← rule_of_mem_check hr hf, ← rule_of_mem_check hs hg]
  exact congrArg (·.1) hkey

/-- At one node only a statement with conditions can be told the same thing twice. -/
theorem distinct_visit_iff : Finding.Distinct ((new o).visit t classes node) ↔
    (o.isEnabled IfConditions.id = true → t.kind node = .ifStmt →
      Finding.Distinct (IfConditions.rule.check ((new o).context t classes) node)) := by
  have hrules : (new o).rules = Rule.shipped.filter (o.isEnabled ·.id) := rfl
  rw [visit_eq, hrules, Finding.distinct_flatMap]
  have hpairs : ((Rule.shipped.filter (o.isEnabled ·.id)).filter
      (·.interests.contains (t.kind node))).Pairwise fun r s =>
        ∀ f ∈ r.check ((new o).context t classes) node,
          ∀ g ∈ s.check ((new o).context t classes) node, f.key ≠ g.key := by
    have hids := (List.pairwise_map.1 Rule.shipped_ids_nodup).sublist
      (List.filter_sublist.trans List.filter_sublist :
        (Rule.shipped.filter (o.isEnabled ·.id)).filter
          (·.interests.contains (t.kind node)) <+ Rule.shipped)
    exact hids.imp_of_mem fun {r s} hr hs hne f hf g hg hkey => hne (congrArg Rule.id
      (rule_eq_of_key_eq (List.mem_of_mem_filter (List.mem_of_mem_filter hr))
        (List.mem_of_mem_filter (List.mem_of_mem_filter hs)) hf hg hkey))
  rw [and_iff_left hpairs]
  constructor
  · intro h hon hkind
    refine h IfConditions.rule (List.mem_filter.2 ⟨List.mem_filter.2 ⟨ifConditions_mem, hon⟩, ?_⟩)
    rw [hkind]
    rfl
  · intro h r hr
    obtain ⟨hr, hinterest⟩ := List.mem_filter.1 hr
    obtain ⟨hr, hon⟩ := List.mem_filter.1 hr
    simp only [Rule.shipped, List.mem_cons, List.not_mem_nil, or_false] at hr
    rcases hr with rfl | rfl | rfl | rfl
    · exact LoopAccumulation.distinct_check
    · exact CascadeReplace.distinct_check
    · exact h hon (List.mem_singleton.1 (List.contains_iff_mem.1 hinterest))
    · exact UnusedMock.distinct_check

/-- What two nodes are told can agree about operators and about mocks only. -/
theorem visit_apart_iff (ht : t.Linked) (hx : x < t.size) (hy : y < t.size) (hne : x ≠ y) :
    (∀ f ∈ (new o).visit t classes x, ∀ g ∈ (new o).visit t classes y, f.key ≠ g.key) ↔
      (o.isEnabled IfConditions.id = true → o.reportLiteralOperators = true →
        t.kind x = .ifStmt → t.kind y = .ifStmt →
          ∀ c ∈ IfConditions.conditions (t.node x), ∀ d ∈ IfConditions.conditions (t.node y),
            ¬ IfConditions.ShareWord c d) ∧
      (o.isEnabled UnusedMock.id = true →
        t.kind x = .methodCallExpr → t.kind y = .methodCallExpr →
          ∀ f ∈ UnusedMock.rule.check ((new o).context t classes) x,
            f ∉ UnusedMock.rule.check ((new o).context t classes) y) := by
  have hstatements := fun hkx hky =>
    @IfConditions.check_apart_iff ((new o).context t classes) x y ht hx hkx hy hky hne
  constructor
  · intro hapart
    refine ⟨fun hon hwords hkx hky => (hstatements hkx hky).1 (fun f hf g hg => ?_) hwords,
      fun hon hkx hky f hf hg => hapart f (mem_visit.2 ?_) f (mem_visit.2 ?_) rfl⟩
    · exact hapart f (mem_visit.2 ⟨_, ifConditions_mem, hon, by rw [hkx]; rfl, hf⟩) g
        (mem_visit.2 ⟨_, ifConditions_mem, hon, by rw [hky]; rfl, hg⟩)
    · exact ⟨_, unusedMock_mem, hon, by rw [hkx]; rfl, hf⟩
    · exact ⟨_, unusedMock_mem, hon, by rw [hky]; rfl, hg⟩
  · rintro ⟨hwords, hmocks⟩ f hf g hg hkey
    obtain ⟨r, hr, hon, hrx, hf⟩ := mem_visit.1 hf
    obtain ⟨s, hs, -, hsy, hg⟩ := mem_visit.1 hg
    obtain rfl := rule_eq_of_key_eq hr hs hf hg hkey
    have hanchor : f.anchor.id = g.anchor.id := congrArg (·.2.1.id) hkey
    simp only [Rule.shipped, List.mem_cons, List.not_mem_nil, or_false] at hr
    rcases hr with rfl | rfl | rfl | rfl
    · obtain ⟨_, rfl⟩ := LoopAccumulation.eq_of_mem_check hf
      obtain ⟨_, rfl⟩ := LoopAccumulation.eq_of_mem_check hg
      exact hne hanchor
    · have hownx : t.Owner f.anchor.id x := CascadeReplace.owner_of_mem_check ht hx hf
      have howny : t.Owner g.anchor.id y := CascadeReplace.owner_of_mem_check ht hy hg
      exact hne (hownx.unique (hanchor ▸ howny))
    · have hkx := List.mem_singleton.1 (List.contains_iff_mem.1 hrx)
      have hky := List.mem_singleton.1 (List.contains_iff_mem.1 hsy)
      exact (hstatements hkx hky).2 (fun hwords' => hwords hon hwords' hkx hky) f hf g hg hkey
    · have hkx := List.mem_singleton.1 (List.contains_iff_mem.1 hrx)
      have hky := List.mem_singleton.1 (List.contains_iff_mem.1 hsy)
      exact hmocks hon hkx hky f hf (UnusedMock.eq_of_key_eq hf hg hkey ▸ hg)

/-- No two findings of an analysis agree in rule, anchor and message, unless an operator that is
written as a word stands within two conditions, a term answers for two of the terms around its
statement, or a variable is reported as the mock of two calls; and then two do. -/
theorem distinct_findings_iff {admits : Tree → NodeId → Prop} (hrun : Tree.Run admits t)
    (o : Options) (classes : ClassLookup) : Finding.Distinct ((new o).findings t classes) ↔
      (o.isEnabled IfConditions.id = true →
        (o.reportLiteralOperators = true →
          (conditions t).Pairwise fun c d => ¬ IfConditions.ShareWord c d) ∧
        (o.reportDuplicateConditions = true →
          ∀ x ∈ t.descendants t.root, t.kind x = .ifStmt → IfConditions.AnswersOnce t x)) ∧
      (o.isEnabled UnusedMock.id = true →
        UnusedMock.Apart ((new o).context t (Memo.fresh classes).lookup)) := by
  have ht := hrun.sound
  have hsize : ∀ x ∈ t.descendants t.root, x < t.size := fun x hx =>
    ht.lt_size_of_mem_descendants hx
  have hstatement := fun x hx => @IfConditions.distinct_check_iff
    ((new o).context t (Memo.fresh classes).lookup) x ht.linked (hsize x hx)
  rw [findings, Finding.distinct_flatMap, pairwise_iff_of_pairwise ht.nodup_descendants
    fun x hx y hy hne => visit_apart_iff ht.linked (hsize x hx) (hsize y hy) hne,
    List.pairwise_and_iff]
  constructor
  · rintro ⟨hone, hwords, hmocks⟩
    refine ⟨fun hon => ⟨fun hwordsOn => List.pairwise_flatMap.2 ⟨fun x hx => ?_, ?_⟩,
      fun hrepeatsOn x hx hkind => ?_⟩, fun hon => List.pairwise_filter.2 ?_⟩
    · obtain ⟨hx, hkind⟩ := List.mem_filter.1 hx
      have hkind := eq_of_beq hkind
      exact ((hstatement x hx hkind).1 (distinct_visit_iff.1 (hone x hx) hon hkind)).1 hwordsOn
    · exact List.pairwise_filter.2 (hwords.imp fun h hx hy =>
        h hon hwordsOn (eq_of_beq hx) (eq_of_beq hy))
    · exact ((hstatement x hx hkind).1 (distinct_visit_iff.1 (hone x hx) hon hkind)).2 hrepeatsOn
    · exact hmocks.imp fun h hx hy => h hon (eq_of_beq hx) (eq_of_beq hy)
  · rintro ⟨hconditions, hmocks⟩
    refine ⟨fun x hx => distinct_visit_iff.2 fun hon hkind => (hstatement x hx hkind).2
      ⟨fun hwordsOn => ?_, fun hrepeatsOn => (hconditions hon).2 hrepeatsOn x hx hkind⟩,
      pairwise_imp_iff.2 fun hon => pairwise_imp_iff.2 fun hwordsOn => ?_,
      pairwise_imp_iff.2 fun hon => ?_⟩
    · exact (List.pairwise_flatMap.1 ((hconditions hon).1 hwordsOn)).1 x
        (List.mem_filter.2 ⟨hx, beq_iff_eq.2 hkind⟩)
    · have hpairs := (List.pairwise_flatMap.1 ((hconditions hon).1 hwordsOn)).2
      exact (List.pairwise_filter.1 hpairs).imp fun h hx hy =>
        h (beq_iff_eq.2 hx) (beq_iff_eq.2 hy)
    · exact (List.pairwise_filter.1 (hmocks hon)).imp fun h hx hy =>
        h (beq_iff_eq.2 hx) (beq_iff_eq.2 hy)

end Analysis

/-- What the parser makes is a tree as it was built. -/
theorem Parse.run_of_after {admits : Tree → NodeId → Prop} {grammar : Grammar} {source : String}
    {base : Nat} {p : Parse} (h : Parse.after grammar source base = .ok p) :
    Tree.Run admits p.tree := by
  rw [after] at h
  split at h
  · obtain rfl := Except.ok.inj h
    exact .built _
  · split at h
    split at h
    · cases h
    · obtain rfl := Except.ok.inj h
      exact .built _

namespace Analysis

/-! Sources that ask `f($x)` within a question for `f($x)`, twice or three times, and one where the
argument of the question is a function with an `and` in it. -/

open CascadeReplace

def variablePiece (role : String) (start : Nat) : Concrete :=
  rolePiece role "variable_name" start (start + 2)
    [signPiece "$" start, Parse.piece "name" (start + 1) (start + 2) []]

/-- A call of a function with a name of one letter. -/
def callPiece (start : Nat) (argument : Concrete) : Concrete :=
  Parse.piece "function_call_expression" start (argument.stop + 1)
    [rolePiece "function" "name" start (start + 1) [],
      rolePiece "arguments" "arguments" (start + 1) (argument.stop + 1)
        [signPiece "(" (start + 1), Parse.piece "argument" (start + 2) argument.stop [argument],
          signPiece ")" argument.stop]]

def blockPiece (start stop : Nat) (statements : List Concrete) : Concrete :=
  rolePiece "body" "compound_statement" start stop
    ([signPiece "\x7b" start] ++ statements ++ [signPiece "\x7d" (stop - 1)])

def ifPiece (start stop : Nat) (condition : Concrete) (statements : List Concrete) : Concrete :=
  Parse.piece "if_statement" start stop
    [signPiece "if" start,
      rolePiece "condition" "parenthesized_expression" (start + 2) (condition.stop + 1)
        [signPiece "(" (start + 2), condition, signPiece ")" condition.stop],
      blockPiece (condition.stop + 1) stop statements]

/-- One question within another, as often as is said. -/
def askedPieces (start stop : Nat) : Nat → List Concrete
  | 0 => []
  | depth + 1 => [ifPiece start stop (callPiece (start + 3) (variablePiece "" (start + 5)))
      (askedPieces (start + 10) (stop - 1) depth)]

def askedTwice : String := "<?php if(f($x))\x7bif(f($x))\x7b\x7d\x7d"

def askedThrice : String := "<?php if(f($x))\x7bif(f($x))\x7bif(f($x))\x7b\x7d\x7d\x7d"

def andWithin : String := "<?php if(f(function()\x7bif($a and $b)\x7b\x7d\x7d))\x7b\x7d"

/-- What stands in the argument of `andWithin`. -/
def andPiece : Concrete :=
  Parse.piece "anonymous_function" 11 38
    [signPiece "function" 11,
      rolePiece "parameters" "formal_parameters" 19 21 [signPiece "(" 19, signPiece ")" 20],
      blockPiece 21 38 [ifPiece 22 37
        (Parse.piece "binary_expression" 25 34
          [variablePiece "left" 25, signPiece "and" 28, variablePiece "right" 32]) []]]

def askingGrammar : Grammar := fun source =>
  let statements :=
    if source = askedTwice then askedPieces 6 28 2
    else if source = askedThrice then askedPieces 6 39 3
    else if source = andWithin then [ifPiece 6 42 (callPiece 9 andPiece) []]
    else []
  some (Parse.piece "program" 0 source.utf8ByteSize (Parse.piece "php_tag" 0 5 [] :: statements))

theorem exists_of_any {ε α : Type} {x : Except ε α} {p : α → Bool} (h : x.toOption.any p = true) :
    ∃ a, x = .ok a ∧ p a = true := by
  cases x with
  | error e => cases h
  | ok a => exact ⟨a, rfl, h⟩

/-- The inner of two equal questions is reported once, for the one around it. -/
theorem distinct_findings_of_askedTwice : ∃ p, Parse.file askingGrammar askedTwice = .ok p ∧
    p.errors = [] ∧ Finding.Distinct ((new .standard).findings p.tree .unknown) ∧
      ((conditions p.tree).Pairwise fun c d => ¬ IfConditions.ShareWord c d) ∧
      ∀ x ∈ p.tree.descendants p.tree.root, p.tree.kind x = .ifStmt →
        IfConditions.AnswersOnce p.tree x := by
  obtain ⟨p, hp, hcheck⟩ := exists_of_any (x := Parse.file askingGrammar askedTwice)
    (p := fun p => p.errors.isEmpty &&
      decide (Finding.Distinct ((new .standard).findings p.tree .unknown))) (by decide +kernel)
  rw [Bool.and_eq_true, List.isEmpty_iff, decide_eq_true_iff] at hcheck
  have hrun : Tree.Run (fun _ _ => True) p.tree := Parse.run_of_after hp
  obtain ⟨hwords, hanswers⟩ := ((distinct_findings_iff hrun .standard .unknown).1 hcheck.2).1 rfl
  exact ⟨p, hp, hcheck.1, hcheck.2, hwords rfl, hanswers rfl⟩

/-- The innermost of three equal questions is reported for each of the two around it; and an `and`
in a function within a condition is reported for this condition and for its own. -/
theorem exists_findings_not_distinct :
    (∃ p, Parse.file askingGrammar askedThrice = .ok p ∧ p.errors = [] ∧
      ¬ Finding.Distinct ((new .standard).findings p.tree .unknown)) ∧
    ∃ p, Parse.file askingGrammar andWithin = .ok p ∧ p.errors = [] ∧
      ¬ Finding.Distinct ((new .standard).findings p.tree .unknown) := by
  have hboth : ∀ source ∈ [askedThrice, andWithin],
      (Parse.file askingGrammar source).toOption.any (fun p => p.errors.isEmpty &&
        !decide (Finding.Distinct ((new .standard).findings p.tree .unknown))) = true := by
    decide +kernel
  have hone : ∀ source ∈ [askedThrice, andWithin], ∃ p, Parse.file askingGrammar source = .ok p ∧
      p.errors = [] ∧ ¬ Finding.Distinct ((new .standard).findings p.tree .unknown) :=
    fun source hsource => by
      obtain ⟨p, hp, hcheck⟩ := exists_of_any (hboth source hsource)
      rw [Bool.and_eq_true, List.isEmpty_iff, Bool.not_eq_true', decide_eq_false_iff_not] at hcheck
      exact ⟨p, hp, hcheck⟩
  exact ⟨hone _ List.mem_cons_self, hone _ (List.mem_cons_of_mem _ List.mem_cons_self)⟩

end Analysis

end PhpLint
