import PhpLint.Analysis
import PhpLint.Proofs.Hierarchy.Memo
import PhpLint.Proofs.Rule.Dispatch
import PhpLint.Proofs.Spacing.Twins
import PhpLint.Proofs.Tree.Reachable
import PhpLint.Proofs.Tree.Versions

/-! The two ways to walk a tree, collecting all its findings or looking for the next one, against
the plain account of what the rules say about its nodes. Neither the table of rules, nor the queue
of findings, nor that all rules ask one memo shows in what comes out. -/

namespace PhpLint

/-! The collector. -/

namespace Collector

theorem lookup_tally (rule other : String) (counts : List (String × Nat)) :
    ((tally rule counts).lookup other).getD 0 =
      (counts.lookup other).getD 0 + if rule = other then 1 else 0 := by
  induction counts with
  | nil =>
    by_cases h : rule = other
    · simp [tally, h]
    · simp [tally, List.lookup_cons, beq_false_of_ne (Ne.symm h), h]
  | cons entry counts ih =>
    rw [tally]
    by_cases hentry : entry.1 = rule
    · rw [if_pos hentry, List.lookup_cons, List.lookup_cons, hentry]
      by_cases h : rule = other
      · simp [h]
      · simp [beq_false_of_ne (Ne.symm h), h]
    · rw [if_neg hentry, List.lookup_cons, List.lookup_cons]
      by_cases h : other = entry.1
      · have hrule : rule ≠ other := fun hr => hentry (h.symm.trans hr.symm)
        simp [h, Ne.symm hentry]
      · rw [beq_false_of_ne h]
        exact ih

theorem findings_reportAll (c : Collector) (found : List Finding) :
    (c.reportAll found).findings = c.findings ++ found := by
  induction found generalizing c with
  | nil => exact (List.append_nil _).symm
  | cons f found ih => rw [reportAll, List.foldl_cons, ← reportAll, ih, report, List.append_assoc,
      List.singleton_append]

theorem count_reportAll (c : Collector) (found : List Finding) (rule : String) :
    (c.reportAll found).count rule = c.count rule + found.countP (·.rule == rule) := by
  induction found generalizing c with
  | nil => rfl
  | cons f found ih =>
    have hreport : (c.report f).count rule = c.count rule + if f.rule = rule then 1 else 0 :=
      lookup_tally f.rule rule c.perRule
    rw [reportAll, List.foldl_cons, ← reportAll, ih, hreport, List.countP_cons]
    simp only [beq_iff_eq]
    omega

end Collector

/-! What the rules say, without table, queue or shared memo. -/

namespace Analysis

section Reports

variable (options : Options) (rules : List Rule) (coupling : Coupling) (t : Tree)
  (classes : ClassLookup)

/-- The findings at one node: those of the enabled rules that look at its kind, each rule asked
once, in the order of the list and with a memo of its own. -/
def reportsAt (n : Node) : List Finding :=
  (rules.filter fun r => options.isEnabled r.id && r.interests.contains n.kind).flatMap fun r =>
    r.check ⟨t, options, (Memo.fresh classes).lookup, coupling, options.cheapNames⟩ n.id

/-- The findings of a subtree: those at its composite nodes, each node before what is below it. -/
def reports (root : NodeId) : List Finding :=
  (t.node root).descendants.flatMap (reportsAt options rules coupling t classes)

end Reports

variable {a : Analysis} {options : Options} {rules : List Rule} {coupling : Coupling} {t : Tree}
  {classes : ClassLookup} {m m' : Memo} {found : List Finding} {node root : NodeId}

/-- Visiting a node asks the rules that look at its kind. -/
theorem visit_eq (a : Analysis) (t : Tree) (classes : ClassLookup) (node : NodeId) :
    a.visit t classes node =
      (a.rules.filter (·.interests.contains (t.kind node))).flatMap fun r =>
        r.check (a.context t classes) node :=
  Dispatch.flatMap_places a.rules (t.kind node) fun r => r.check (a.context t classes) node

theorem visit_withRules (n : Node) (hkind : t.kind n.id = n.kind) :
    ((withRules options rules).withCoupling coupling).visit t (Memo.fresh classes).lookup n.id =
      reportsAt options rules coupling t classes n := by
  rw [visit_eq, hkind, reportsAt, withCoupling, withRules, List.filter_filter]
  exact congrArg (List.flatMap _) (List.filter_congr fun r _ => Bool.and_comm _ _)

theorem flatMap_visit_eq (ht : t.Linked) (hroot : root < t.size) :
    (t.descendants root).flatMap
        (((withRules options rules).withCoupling coupling).visit t (Memo.fresh classes).lookup) =
      reports options rules coupling t classes root := by
  rw [ht.descendants_eq hroot, List.flatMap_map, reports]
  refine List.flatMap_congr fun n hn => visit_withRules n ?_
  exact ((ht.holds_node hroot).of_mem_preorder (List.mem_of_mem_filter hn)).kind_eq

theorem collect_eq (a : Analysis) (t : Tree) (classes : ClassLookup) (root : NodeId) :
    a.collect t classes root = Collector.empty.reportAll
      ((t.descendants root).flatMap (a.visit t (Memo.fresh classes).lookup)) := by
  rw [collect, Collector.reportAll, List.foldl_flatMap]
  rfl

/-! One memo for all. -/

/-- The rules at some places asked about a node one after another, with one memo that each of them
leaves as it may. -/
inductive Asks (a : Analysis) (t : Tree) (node : NodeId) :
    List Nat → Memo → List Finding → Memo → Prop
  | nil (m : Memo) : Asks a t node [] m [] m
  | cons {i : Nat} {r : Rule} {is : List Nat} {m m₁ m' : Memo} {lookup : ClassLookup}
    {found : List Finding} :
    a.rules[i]? = some r → m.Serves lookup → m.Asked m₁ → Asks a t node is m₁ found m' →
    Asks a t node (i :: is) m (r.check (a.context t lookup) node ++ found) m'

/-- A node visited with a memo that may have been asked before. -/
def Visits (a : Analysis) (t : Tree) (node : NodeId) : Memo → List Finding → Memo → Prop :=
  Asks a t node (dispatch a.rules (t.kind node))

/-- Nodes visited one after another with one memo, all they have to say collected. -/
inductive Collects (a : Analysis) (t : Tree) :
    List NodeId → Memo → Collector → Memo → Collector → Prop
  | nil (m : Memo) (c : Collector) : Collects a t [] m c m c
  | cons {node : NodeId} {nodes : List NodeId} {m m₁ m' : Memo} {c c' : Collector}
    {found : List Finding} :
    Visits a t node m found m₁ → Collects a t nodes m₁ (c.reportAll found) m' c' →
    Collects a t (node :: nodes) m c m' c'

theorem Asks.eq {is : List Nat} (h : Asks a t node is m found m') (hm : m.Faithful classes) :
    (found = is.flatMap fun i => match a.rules[i]? with
      | some r => r.check (a.context t (Memo.fresh classes).lookup) node
      | none => []) ∧ m'.Faithful classes := by
  induction h with
  | nil => exact ⟨rfl, hm⟩
  | cons hrule hserves hasked _ ih =>
    obtain ⟨rfl, hm'⟩ := ih (hm.asked hasked)
    rw [List.flatMap_cons, hrule, hm.lookup_eq hserves]
    exact ⟨rfl, hm'⟩

theorem Visits.eq (h : a.Visits t node m found m') (hm : m.Faithful classes) :
    found = a.visit t (Memo.fresh classes).lookup node ∧ m'.Faithful classes :=
  Asks.eq h hm

theorem Collects.eq {nodes : List NodeId} {c c' : Collector} (h : a.Collects t nodes m c m' c')
    (hm : m.Faithful classes) :
    c' = c.reportAll (nodes.flatMap (a.visit t (Memo.fresh classes).lookup)) := by
  induction h with
  | nil => rfl
  | cons hvisit _ ih =>
    obtain ⟨rfl, hm₁⟩ := hvisit.eq hm
    rw [ih hm₁, List.flatMap_cons, Collector.reportAll, Collector.reportAll, Collector.reportAll,
      List.foldl_append]

theorem exists_visits (a : Analysis) (t : Tree) (node : NodeId) (m : Memo) :
    ∃ found m', a.Visits t node m found m' := by
  have hasks : ∀ is : List Nat, (∀ i ∈ is, ∃ r, a.rules[i]? = some r) →
      ∃ found m', Asks a t node is m found m' := by
    intro is
    induction is with
    | nil => exact fun _ => ⟨[], m, .nil m⟩
    | cons i is ih =>
      intro his
      obtain ⟨r, hr⟩ := his i List.mem_cons_self
      obtain ⟨found, m', h⟩ := ih fun i hi => his i (List.mem_cons_of_mem _ hi)
      exact ⟨_, m', .cons hr m.serves_lookup (.refl m) h⟩
  exact hasks _ fun _ => Dispatch.exists_rule_of_mem_places

theorem exists_collects (a : Analysis) (t : Tree) (nodes : List NodeId) (m : Memo) (c : Collector) :
    ∃ m' c', a.Collects t nodes m c m' c' := by
  induction nodes generalizing m c with
  | nil => exact ⟨m, c, .nil m c⟩
  | cons node nodes ih =>
    obtain ⟨found, m₁, hvisit⟩ := a.exists_visits t node m
    obtain ⟨m', c', h⟩ := ih m₁ (c.reportAll found)
    exact ⟨m', c', .cons hvisit h⟩

end Analysis

/-! The search for the next finding. -/

namespace Search

variable {a : Analysis} {t : Tree} {classes : ClassLookup} {s s' : Search} {m m' : Memo}
  {rest given pending : List Finding} {fuel : Nat} {node : NodeId} {stack : List NodeId}

/-- From this state `rest` is still to come: what is pending, and what is to be said about the
subtrees on the stack, which have no more than `fuel` nodes. -/
structure Ahead (a : Analysis) (t : Tree) (classes : ClassLookup) (fuel : Nat) (s : Search)
    (rest : List Finding) : Prop where
  exists_nodes : ∃ ns : List Node, (∀ n ∈ ns, Slots.Holds t.slots n) ∧ s.stack = ns.map Node.id ∧
    (ns.flatMap Node.ids).length ≤ fuel ∧
    rest = s.pending ++ ns.flatMap fun n => n.descendants.flatMap (a.visit t classes ·.id)

namespace Ahead

theorem start (ht : t.Linked) (hroot : t.root < t.size) :
    Ahead a t classes t.size (start t) ((t.descendants t.root).flatMap (a.visit t classes)) := by
  have hholds := ht.holds_node hroot
  refine ⟨[t.node t.root], by simpa using hholds, ?_, ?_, ?_⟩
  · rw [List.map_singleton, Tree.id_node]
    rfl
  · simpa using ht.length_ids_le hholds
  · rw [List.flatMap_singleton, ht.descendants_eq hroot, List.flatMap_map]
    rfl

theorem give {f : Finding} (h : Ahead a t classes fuel ⟨stack, f :: pending⟩ rest) :
    ∃ rest', rest = f :: rest' ∧ Ahead a t classes fuel ⟨stack, pending⟩ rest' := by
  obtain ⟨ns, hns, hstack, hfuel, rfl⟩ := h
  exact ⟨_, rfl, ns, hns, hstack, hfuel, rfl⟩

theorem done (h : Ahead a t classes fuel ⟨[], []⟩ rest) : rest = [] := by
  obtain ⟨ns, -, hstack, -, rfl⟩ := h
  rw [List.map_eq_nil_iff.1 hstack.symm]
  rfl

/-- A node off the stack: what it has to say is pending, its children are on the stack. -/
theorem enter (h : Ahead a t classes fuel ⟨node :: stack, []⟩ rest) :
    ∃ fuel', fuel = fuel' + 1 ∧
      Ahead a t classes fuel' ⟨t.children node ++ stack,
        if t.isToken node then [] else a.visit t classes node⟩ rest := by
  obtain ⟨ns, hns, hstack, hfuel, rfl⟩ := h
  cases ns with
  | nil => cases hstack
  | cons n ns =>
    obtain ⟨rfl, rfl⟩ := List.cons.inj hstack
    have hn := hns n List.mem_cons_self
    have hlength : (n.ids ++ ns.flatMap Node.ids).length =
        ((n.children ++ ns).flatMap Node.ids).length + 1 := by
      rw [Node.ids_eq, List.cons_append, List.length_cons, List.flatMap_append]
    rw [List.flatMap_cons, hlength] at hfuel
    obtain ⟨fuel', rfl⟩ := Nat.exists_eq_add_of_lt hfuel
    refine ⟨_, rfl, n.children ++ ns, ?_, ?_, by omega, ?_⟩
    · intro c hc
      rcases List.mem_append.1 hc with hc | hc
      · exact hn.of_mem hc
      · exact hns c (List.mem_cons_of_mem _ hc)
    · rw [List.map_append, ← Tree.children_of_holds hn]
    · have htoken : t.isToken n.id = n.isToken := Tree.isToken_of_holds hn
      have hdescendants : n.descendants =
          (if n.isToken then [] else [n]) ++ n.children.flatMap Node.descendants := by
        rw [Node.descendants, Node.preorder_eq, List.filter_cons, List.filter_flatMap]
        cases n.isToken <;> rfl
      rw [List.flatMap_cons, hdescendants, List.flatMap_append, List.flatMap_append, htoken,
        List.flatMap_assoc, List.append_assoc, List.nil_append]
      cases n.isToken
      · rw [if_neg Bool.false_ne_true, if_neg Bool.false_ne_true, List.flatMap_singleton]
      · rfl

theorem mono {fuel' : Nat} (h : Ahead a t classes fuel s rest) (hle : fuel ≤ fuel') :
    Ahead a t classes fuel' s rest := by
  obtain ⟨ns, hns, hstack, hfuel, hrest⟩ := h
  exact ⟨ns, hns, hstack, hfuel.trans hle, hrest⟩

/-- The search finds the first of what is to come, and finds nothing only where nothing is. -/
theorem next? (h : Ahead a t classes fuel s rest) :
    (rest = [] ∧ s.next? a t classes (fuel + 1) = none) ∨
      ∃ f rest' s', rest = f :: rest' ∧ s.next? a t classes (fuel + 1) = some (f, s') ∧
        Ahead a t classes fuel s' rest' := by
  induction fuel generalizing s with
  | zero =>
    obtain ⟨_ | ⟨node, stack⟩, _ | ⟨f, pending⟩⟩ := s
    · exact .inl ⟨h.done, rfl⟩
    · obtain ⟨rest', rfl, h'⟩ := h.give
      exact .inr ⟨f, rest', _, rfl, rfl, h'⟩
    · obtain ⟨_, hfuel, -⟩ := h.enter
      cases hfuel
    · obtain ⟨rest', rfl, h'⟩ := h.give
      exact .inr ⟨f, rest', _, rfl, rfl, h'⟩
  | succ fuel ih =>
    obtain ⟨_ | ⟨node, stack⟩, _ | ⟨f, pending⟩⟩ := s
    · exact .inl ⟨h.done, rfl⟩
    · obtain ⟨rest', rfl, h'⟩ := h.give
      exact .inr ⟨f, rest', _, rfl, rfl, h'⟩
    · obtain ⟨fuel', hfuel, hentered⟩ := h.enter
      cases hfuel
      rcases ih hentered with ⟨hrest, hnone⟩ | ⟨f, rest', s', hrest, hsome, h'⟩
      · exact .inl ⟨hrest, hnone⟩
      · exact .inr ⟨f, rest', s', hrest, hsome, h'.mono fuel.le_succ⟩
    · obtain ⟨rest', rfl, h'⟩ := h.give
      exact .inr ⟨f, rest', _, rfl, rfl, h'⟩

theorem takeFrom (h : Ahead a t classes t.size s rest) (n : Nat) :
    s.takeFrom a t classes n = rest.take n := by
  induction n generalizing s rest with
  | zero => rfl
  | succ n ih =>
    rw [Search.takeFrom]
    rcases h.next? with ⟨rfl, hnone⟩ | ⟨f, rest', s', rfl, hsome, h'⟩
    · rw [hnone]
      rfl
    · rw [hsome, List.take_succ_cons, ← ih h']

end Ahead

/-- A scan: what is given on the way from one state to another, all rules asking one memo. -/
inductive Gives (a : Analysis) (t : Tree) :
    Memo → Search → List Finding → Memo → Search → Prop
  | stop (m : Memo) (s : Search) : Gives a t m s [] m s
  | give {m m' : Memo} {stack : List NodeId} {f : Finding} {pending given : List Finding}
    {s' : Search} :
    Gives a t m ⟨stack, pending⟩ given m' s' →
    Gives a t m ⟨stack, f :: pending⟩ (f :: given) m' s'
  | pass {m m' : Memo} {node : NodeId} {stack : List NodeId} {given : List Finding} {s' : Search} :
    t.isToken node = true → Gives a t m ⟨t.children node ++ stack, []⟩ given m' s' →
    Gives a t m ⟨node :: stack, []⟩ given m' s'
  | visit {m m₁ m' : Memo} {node : NodeId} {stack : List NodeId} {found given : List Finding}
    {s' : Search} :
    t.isToken node = false → a.Visits t node m found m₁ →
    Gives a t m₁ ⟨t.children node ++ stack, found⟩ given m' s' →
    Gives a t m ⟨node :: stack, []⟩ given m' s'

theorem Gives.ahead (h : Gives a t m s given m' s') (hm : m.Faithful classes)
    (hahead : Ahead a t (Memo.fresh classes).lookup fuel s rest) :
    ∃ rest', rest = given ++ rest' ∧ Ahead a t (Memo.fresh classes).lookup fuel s' rest' := by
  induction h generalizing rest with
  | stop => exact ⟨rest, rfl, hahead⟩
  | give _ ih =>
    obtain ⟨rest', rfl, h'⟩ := hahead.give
    obtain ⟨rest'', rfl, h''⟩ := ih hm h'
    exact ⟨rest'', rfl, h''⟩
  | pass htoken _ ih =>
    obtain ⟨fuel', rfl, h'⟩ := hahead.enter
    rw [htoken] at h'
    exact ih hm (h'.mono fuel'.le_succ)
  | visit htoken hvisit _ ih =>
    obtain ⟨rfl, hm₁⟩ := hvisit.eq hm
    obtain ⟨fuel', rfl, h'⟩ := hahead.enter
    rw [htoken] at h'
    exact ih hm₁ (h'.mono fuel'.le_succ)

/-- Every scan can be carried on to the end. -/
theorem Ahead.exists_gives (h : Ahead a t (Memo.fresh classes).lookup fuel s rest)
    (hm : m.Faithful classes) : ∃ m', Gives a t m s rest m' ⟨[], []⟩ := by
  have hall : ∃ given m', Gives a t m s given m' ⟨[], []⟩ := by
    induction fuel using Nat.strong_induction_on generalizing s m rest with
    | _ fuel ih =>
      obtain ⟨stack, pending⟩ := s
      induction pending generalizing rest with
      | cons f pending ihp =>
        obtain ⟨rest', rfl, h'⟩ := h.give
        obtain ⟨given, m', hgives⟩ := ihp h'
        exact ⟨f :: given, m', .give hgives⟩
      | nil =>
        cases stack with
        | nil => exact ⟨[], m, .stop m _⟩
        | cons node stack =>
          obtain ⟨fuel', rfl, h'⟩ := h.enter
          cases htoken : t.isToken node with
          | true =>
            rw [htoken] at h'
            obtain ⟨given, m', hgives⟩ := ih fuel' fuel'.lt_succ_self h' hm
            exact ⟨given, m', .pass htoken hgives⟩
          | false =>
            obtain ⟨found, m₁, hvisit⟩ := a.exists_visits t node m
            obtain ⟨rfl, hm₁⟩ := hvisit.eq hm
            rw [htoken] at h'
            obtain ⟨given, m', hgives⟩ := ih fuel' fuel'.lt_succ_self h' hm₁
            exact ⟨given, m', .visit htoken hvisit hgives⟩
  obtain ⟨given, m', hgives⟩ := hall
  obtain ⟨rest', rfl, hdone⟩ := hgives.ahead hm h
  rw [hdone.done, List.append_nil]
  exact ⟨m', hgives⟩

end Search

namespace Analysis

variable {admits : Tree → NodeId → Prop} {t : Tree}

/-- Collected at once or searched for one by one, with a memo for each visit or with one for all,
the findings of a subtree are those that the rules report about its nodes, in the same order. -/
theorem walks_give_reports (ht : Tree.Run admits t) (options : Options) (rules : List Rule)
    (coupling : Coupling) (classes : ClassLookup) :
    let a := (withRules options rules).withCoupling coupling
    let plain := reports options rules coupling t classes
    (∀ root < t.size, a.visitSubtree t classes root = plain root ∧
      (∀ rule, (a.collect t classes root).count rule = (plain root).countP (·.rule == rule)) ∧
      (∃ m, a.Collects t (t.descendants root) (.fresh classes) .empty m
        (a.collect t classes root)) ∧
      ∀ m c, a.Collects t (t.descendants root) (.fresh classes) .empty m c →
        c = a.collect t classes root) ∧
    a.findings t classes = plain t.root ∧
    (∀ n, Search.take a t classes n = (plain t.root).take n) ∧
    (∃ m, Search.Gives a t (.fresh classes) (.start t) (plain t.root) m ⟨[], []⟩) ∧
    ∀ m given s, Search.Gives a t (.fresh classes) (.start t) given m s →
      given <+: plain t.root ∧ (s = ⟨[], []⟩ → given = plain t.root) := by
  intro a plain
  have hlinked := ht.sound.linked
  have hroot := ht.sound.root_lt_size
  have hplain : ∀ root < t.size,
      (t.descendants root).flatMap (a.visit t (Memo.fresh classes).lookup) = plain root :=
    fun root hlt => flatMap_visit_eq hlinked hlt
  have hahead : Search.Ahead a t (Memo.fresh classes).lookup t.size (.start t) (plain t.root) :=
    hplain t.root hroot ▸ .start hlinked hroot
  have hm := Memo.faithful_fresh classes
  refine ⟨fun root hlt => ?_, hplain t.root hroot, hahead.takeFrom, hahead.exists_gives hm,
    fun m given s hgives => ?_⟩
  · have hcollect := a.collect_eq t classes root
    rw [hplain root hlt] at hcollect
    have hcollects : ∀ m c, a.Collects t (t.descendants root) (.fresh classes) .empty m c →
        c = a.collect t classes root := fun m c h =>
      (h.eq hm).trans (a.collect_eq t classes root).symm
    obtain ⟨m, c, h⟩ := a.exists_collects t (t.descendants root) (.fresh classes) .empty
    refine ⟨?_, fun rule => ?_, ⟨m, hcollects m c h ▸ h⟩, hcollects⟩
    · rw [visitSubtree, hcollect, Collector.findings_reportAll]
      rfl
    · rw [hcollect, Collector.count_reportAll]
      exact Nat.zero_add _
  · obtain ⟨rest, hrest, hleft⟩ := hgives.ahead hm hahead
    refine ⟨⟨rest, hrest.symm⟩, fun hs => ?_⟩
    subst hs
    rw [hrest, hleft.done, List.append_nil]

/-- Reports every block, and says twice that it looks at blocks. -/
def blockRule : Rule where
  id := "block"
  interests := [.block, .block]
  check ctx node := [.anchored ctx.tree "block" node "a block" .warning]

/-- Listed twice, the rule reports each of two blocks twice. -/
theorem count_of_blockRule_twice :
    (((withRules .standard [blockRule, blockRule]).withCoupling Coupling.shared).collect
      Tree.threeWords .unknown Tree.threeWords.root).count "block" = 4 := by
  have hrun : Tree.Run (fun _ _ => True) Tree.threeWords := .built _
  have hwalks := walks_give_reports hrun .standard [blockRule, blockRule] Coupling.shared .unknown
  rw [(hwalks.1 Tree.threeWords.root (by decide)).2.1]
  decide

end Analysis

end PhpLint
