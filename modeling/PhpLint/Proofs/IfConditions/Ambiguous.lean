import PhpLint.Analysis
import PhpLint.Proofs.Condition.Truth
import PhpLint.Proofs.Equivalence.Laws
import PhpLint.Rule.IfConditions

/-! Type tests that are reported as ambiguous, and what becomes of the condition without them. -/

namespace PhpLint.IfConditions

variable {ctx : RuleContext} {t : Tree} {f : Finding} {ts : Terms} {terms : List Node}

/-! Every check has a message of its own. -/

theorem message_of_mem_map {α : Type} {xs : List α} {message : String} {severity : Severity}
    {n : α → Node} (h : f ∈ xs.map fun x => report t message severity (n x)) :
    f.message = message := by
  obtain ⟨x, -, rfl⟩ := List.mem_map.1 h
  rfl

theorem message_of_mem_multipleIsset (h : f ∈ multipleIsset t ts) :
    f.message = messageIssetAnd ∨ f.message = messageIssetOr := by
  unfold multipleIsset at h
  split at h
  · exact .inl (message_of_mem_map h)
  · split at h
    · exact .inr (message_of_mem_map h)
    · cases h

theorem message_of_mem_complementarity (h : f ∈ complementarity t ts) :
    f.message = messageComplementary := by
  unfold complementarity at h
  split at h
  · split at h
    · cases h
    · exact message_of_mem_map h
  · cases h

theorem message_of_mem_duplicatedCalls (h : f ∈ duplicatedCalls t terms) :
    f.message = messageDuplicateCall := by
  unfold duplicatedCalls at h
  split at h
  · cases h
  · exact message_of_mem_map h

theorem message_of_mem_literalOperators {condition : Node}
    (h : f ∈ literalOperators t condition) : f.message = messageUseAnd ∨ f.message = messageUseOr := by
  obtain ⟨n, -, hf⟩ := List.mem_flatMap.1 h
  split at hf
  · cases hf
  · split at hf
    · obtain rfl := List.mem_singleton.1 hf
      exact .inl rfl
    · obtain rfl := List.mem_singleton.1 hf
      exact .inr rfl
    · cases hf

theorem message_of_mem_duplicatedConditions {own around : List Node}
    (h : f ∈ duplicatedConditions t own around) : f.message = messageDuplicateCondition := by
  fun_induction duplicatedConditions t own around with
  | case1 => cases h
  | case2 term own around _ ih => exact ih h
  | case3 term own around _ ih =>
    simp only [List.unattach_filter, List.unattach_attach] at ih
    rw [List.mem_append, List.mem_append] at h
    rcases h with (h | h) | h
    · exact message_of_mem_map h
    · exact message_of_mem_map h
    · exact ih h

/-- Of what is found in a branch, the type tests alone are called ambiguous. -/
theorem mem_ambiguousInstanceof_of_branch (h : f ∈ branchFindings ctx ts)
    (hmessage : f.message = messageAmbiguous) : f ∈ ambiguousInstanceof ctx ts.terms := by
  have hne : ∀ {message : String}, f.message = message → messageAmbiguous ≠ message →
      f ∈ ambiguousInstanceof ctx ts.terms := fun hf hne => absurd (hmessage.symm.trans hf) hne
  have hif : ∀ {b : Bool} {fs : List Finding}, f ∈ (if b then fs else []) → f ∈ fs :=
    fun {b} _ hf => by cases b with
      | false => cases hf
      | true => exact hf
  simp only [branchFindings, List.mem_append] at h
  rcases h with (((((h | h) | h) | h) | h) | h) | h
  · exact hne (message_of_mem_map h) (by decide)
  · exact hne (message_of_mem_map (hif h)) (by decide)
  · exact hne (message_of_mem_duplicatedCalls (hif h)) (by decide)
  · exact (message_of_mem_multipleIsset h).elim (hne · (by decide)) (hne · (by decide))
  · exact hne (message_of_mem_complementarity h) (by decide)
  · exact h
  · exact hne (message_of_mem_map (hif h)) (by decide)

/-- What the rule calls ambiguous is a type test of one of the conditions. -/
theorem exists_condition_of_ambiguous {ifStmt : NodeId} (h : f ∈ rule.check ctx ifStmt)
    (hmessage : f.message = messageAmbiguous) : ∃ c ∈ conditions (ctx.tree.node ifStmt),
      f ∈ ambiguousInstanceof ctx (Terms.ofCondition c).terms := by
  have hne : ∀ {message : String}, f.message = message → messageAmbiguous ≠ message → False :=
    fun hf hne => hne (hmessage.symm.trans hf)
  rw [rule] at h
  dsimp only at h
  rw [List.mem_append] at h
  rcases h with h | h
  · obtain ⟨⟨c, ts⟩, hc, hf⟩ := List.mem_flatMap.1 h
    obtain ⟨d, hd, heq⟩ := List.mem_map.1 hc
    cases heq
    refine ⟨c, hd, ?_⟩
    rcases List.mem_append.1 hf with hf | hf
    · exact mem_ambiguousInstanceof_of_branch hf hmessage
    · split at hf
      · exact (message_of_mem_literalOperators hf).elim (fun h => (hne h (by decide)).elim)
          fun h => (hne h (by decide)).elim
      · cases hf
  · split at h
    · exact (hne (message_of_mem_duplicatedConditions h) (by decide)).elim
    · cases h

/-! Type tests in groups. -/

/-- The tests that are compared with each other: type tests against a class that is known by name. -/
def typeTests (ctx : RuleContext) (terms : List Node) : List (Node × TypeTest) :=
  (terms.filter isInstanceof).filterMap (typeTest? ctx)

/-- A group was opened by its first test; the others are about what the first one is about. -/
def Grouped (t : Tree) (tests : List (Node × TypeTest)) (g : TypeTests) : Prop :=
  ∃ first rest, g.tests = first :: rest ∧ (g.subject, first) ∈ tests ∧
    ∀ test ∈ rest, ∃ subject, (subject, test) ∈ tests ∧ same t g.subject subject = true

theorem grouped_addTest {tests : List (Node × TypeTest)} {gs : List TypeTests} {subject : Node}
    {test : TypeTest} (h : ∀ g ∈ gs, Grouped t tests g) (htest : (subject, test) ∈ tests) :
    ∀ g ∈ addTest t subject test gs, Grouped t tests g := by
  induction gs with
  | nil => exact List.forall_mem_singleton.2 ⟨test, [], rfl, htest, nofun⟩
  | cons g gs ih =>
    rw [List.forall_mem_cons] at h
    rw [addTest]
    split
    next hsame =>
      refine List.forall_mem_cons.2 ⟨?_, h.2⟩
      obtain ⟨first, rest, hg, hfirst, hrest⟩ := h.1
      refine ⟨first, rest ++ [test], by rw [hg]; rfl, hfirst, ?_⟩
      exact List.forall_mem_append.2 ⟨hrest, List.forall_mem_singleton.2 ⟨subject, htest, hsame⟩⟩
    next => exact List.forall_mem_cons.2 ⟨h.1, ih h.2⟩

theorem grouped_foldl_addTest {tests more : List (Node × TypeTest)} {gs : List TypeTests}
    (h : ∀ g ∈ gs, Grouped t tests g) (hmore : ∀ test ∈ more, test ∈ tests) :
    ∀ g ∈ more.foldl (fun groups test => addTest t test.1 test.2 groups) gs,
      Grouped t tests g := by
  induction more generalizing gs with
  | nil => exact h
  | cons test more ih =>
    rw [List.forall_mem_cons] at hmore
    exact ih (grouped_addTest h hmore.1) hmore.2

theorem term_of_typeTest? {term : Node} {test : Node × TypeTest}
    (h : typeTest? ctx term = some test) : test.2.term = term := by
  unfold typeTest? at h
  cases hleft : term.left? with
  | none => simp [hleft] at h
  | some left =>
    cases hright : term.right? with
    | none => simp [hleft, hright] at h
    | some right =>
      simp only [hleft, hright, Option.bind_eq_bind, Option.bind_some] at h
      split at h
      · cases h
      · obtain ⟨name, -, heq⟩ := Option.bind_eq_some_iff.1 h
        cases heq
        rfl

theorem mem_terms_of_mem_typeTests {subject : Node} {test : TypeTest}
    (h : (subject, test) ∈ typeTests ctx terms) : test.term ∈ terms := by
  obtain ⟨term, hterm, htest⟩ := List.mem_filterMap.1 h
  rw [show test.term = term from term_of_typeTest? htest]
  exact List.mem_of_mem_filter hterm

/-- What a group reports, and what it is reported for. -/
theorem exists_of_mem_ambiguousInstanceof (h : f ∈ ambiguousInstanceof ctx terms) :
    2 ≤ terms.length ∧ ∃ g, Grouped ctx.tree (typeTests ctx terms) g ∧
      ∃ test ∈ g.tests, ∃ other ∈ g.tests, f.anchor.id = test.term.id ∧
        other.term.id ≠ test.term.id ∧ ∃ above, ctx.classes.ancestors test.className = some above ∧
          other.className ∈ above := by
  unfold ambiguousInstanceof at h
  dsimp only at h
  split at h
  · cases h
  next hlength =>
  obtain ⟨g, hg, hf⟩ := List.mem_flatMap.1 h
  have hgrouped : Grouped ctx.tree (typeTests ctx terms) g :=
    grouped_foldl_addTest (List.forall_mem_nil _) (fun _ htest => htest) g hg
  split at hf
  · cases hf
  obtain ⟨test, htest, rfl⟩ := List.mem_map.1 hf
  obtain ⟨htest, hredundant⟩ := List.mem_filter.1 htest
  obtain ⟨above, habove, hany⟩ := (Option.any_eq_true ..).1 hredundant
  obtain ⟨other, hother, hboth⟩ := List.any_eq_true.1 hany
  rw [Bool.and_eq_true, bne_iff_ne, List.contains_iff_mem] at hboth
  refine ⟨?_, g, hgrouped, test, htest, other, hother, rfl, hboth.1, above, habove, hboth.2⟩
  exact Nat.le_trans (Nat.le_of_not_lt hlength) (List.length_filter_le ..)

/-! Truth values of type tests. -/

/-- Where `p` holds, so does `q`: they test equivalent subjects, `q` for a class above that of `p`. -/
def Entails (ctx : RuleContext) (terms : List Node) (p q : Node) : Prop :=
  ∃ subject name subject' name', (subject, ⟨p, name⟩) ∈ typeTests ctx terms ∧
    (subject', ⟨q, name'⟩) ∈ typeTests ctx terms ∧ same ctx.tree subject subject' = true ∧
    ∃ above, ctx.classes.ancestors name = some above ∧ name' ∈ above

/-- Truth values that fit the hierarchy of classes. -/
def Fitting (ctx : RuleContext) (terms : List Node) (v : Node → Prop) : Prop :=
  ∀ p q, Entails ctx terms p q → v p → v q

theorem fitting_iff {v : Node → Prop} : Fitting ctx terms v ↔
    ∀ x ∈ typeTests ctx terms, ∀ y ∈ typeTests ctx terms, same ctx.tree x.1 y.1 = true →
      (ctx.classes.ancestors x.2.className).any (·.contains y.2.className) = true →
        v x.2.term → v y.2.term := by
  constructor
  · intro h x hx y hy hsame habove
    obtain ⟨above, hup, hmem⟩ := (Option.any_eq_true ..).1 habove
    exact h _ _ ⟨x.1, x.2.className, y.1, y.2.className, hx, hy, hsame, above, hup,
      List.contains_iff_mem.1 hmem⟩
  · rintro h p q ⟨subject, name, subject', name', hp, hq, hsame, above, hup, hmem⟩
    exact h _ hp _ hq hsame ((Option.any_eq_true ..).2 ⟨above, hup, List.contains_iff_mem.2 hmem⟩)

instance (v : Node → Prop) [DecidablePred v] : Decidable (Fitting ctx terms v) :=
  decidable_of_iff _ fitting_iff.symm

/-- What is equivalent to one subject is equivalent to each other. Names whose case may vary in one
place and not in another keep this from holding always. -/
def Coherent (ctx : RuleContext) (terms : List Node) : Prop :=
  ∀ x ∈ typeTests ctx terms, ∀ y ∈ typeTests ctx terms, ∀ z ∈ typeTests ctx terms,
    same ctx.tree x.1 y.1 = true → same ctx.tree x.1 z.1 = true → same ctx.tree y.1 z.1 = true

instance : Decidable (Coherent ctx terms) :=
  inferInstanceAs (Decidable (∀ x ∈ typeTests ctx terms, ∀ y ∈ typeTests ctx terms,
    ∀ z ∈ typeTests ctx terms, same ctx.tree x.1 y.1 = true → same ctx.tree x.1 z.1 = true →
      same ctx.tree y.1 z.1 = true))

theorem same_comm (a b : Node) : same t a b = same t b a := Code.agree_comm ..

/-- Two tests of a group are about equivalent subjects. -/
theorem Coherent.same_of_grouped (h : Coherent ctx terms) {g : TypeTests}
    (hg : Grouped ctx.tree (typeTests ctx terms) g) {p q : TypeTest} (hp : p ∈ g.tests)
    (hq : q ∈ g.tests) (hne : p ≠ q) :
    ∃ subject subject', (subject, p) ∈ typeTests ctx terms ∧ (subject', q) ∈ typeTests ctx terms ∧
      same ctx.tree subject subject' = true := by
  obtain ⟨first, rest, htests, hfirst, hrest⟩ := hg
  rw [htests, List.mem_cons] at hp hq
  rcases hp with rfl | hp <;> rcases hq with rfl | hq
  · exact absurd rfl hne
  · obtain ⟨subject, hsubject, hsame⟩ := hrest q hq
    exact ⟨g.subject, subject, hfirst, hsubject, hsame⟩
  · obtain ⟨subject, hsubject, hsame⟩ := hrest p hp
    exact ⟨subject, g.subject, hsubject, hfirst, (same_comm ..).trans hsame⟩
  · obtain ⟨subject, hsubject, hsame⟩ := hrest p hp
    obtain ⟨subject', hsubject', hsame'⟩ := hrest q hq
    exact ⟨subject, subject', hsubject, hsubject',
      h _ hfirst _ hsubject _ hsubject' hsame hsame'⟩

theorem Entails.mem_left {p q : Node} (h : Entails ctx terms p q) : p ∈ terms := by
  obtain ⟨_, _, _, _, hp, -⟩ := h
  exact mem_terms_of_mem_typeTests hp

theorem Entails.mem_right {p q : Node} (h : Entails ctx terms p q) : q ∈ terms := by
  obtain ⟨_, _, _, _, -, hq, -⟩ := h
  exact mem_terms_of_mem_typeTests hq

/-- Of several terms one of which must hold, one that entails another need not be tested. -/
theorem holds_without_of_entails {term other : Node} {v : Node → Prop}
    (hdisj : ts.isDisjunction = true) (hids : ∀ x ∈ ts.terms, x.id = term.id → x = term)
    (h : Entails ctx ts.terms term other) (hne : other.id ≠ term.id)
    (hv : Fitting ctx ts.terms v) : (ts.without term).Holds v ↔ ts.Holds v := by
  have hwithout : (ts.without term).isDisjunction = true := hdisj
  rw [Terms.holds_of_isDisjunction hdisj, Terms.holds_of_isDisjunction hwithout]
  constructor
  · rintro ⟨x, hx, hvx⟩
    exact ⟨x, (Terms.mem_terms_without.1 hx).1, hvx⟩
  · rintro ⟨x, hx, hvx⟩
    by_cases hid : x.id = term.id
    · rw [hids x hx hid] at hvx
      exact ⟨other, Terms.mem_terms_without.2 ⟨h.mem_right, hne⟩, hv term other h hvx⟩
    · exact ⟨x, Terms.mem_terms_without.2 ⟨hx, hid⟩, hvx⟩

/-- Of several terms that must all hold, the one that need not be tested is one that another term
entails. -/
theorem holds_without_iff_of_isConjunction {term : Node} (hconj : ts.isConjunction = true)
    (hterm : term ∈ ts.terms) (hids : ∀ x ∈ ts.terms, x.id = term.id → x = term) :
    (∀ v, Fitting ctx ts.terms v → ((ts.without term).Holds v ↔ ts.Holds v)) ↔
      ∃ other, other.id ≠ term.id ∧ Entails ctx ts.terms other term := by
  have hwithout : (ts.without term).isConjunction = true := hconj
  simp only [Terms.holds_of_isConjunction hconj, Terms.holds_of_isConjunction hwithout,
    Terms.mem_terms_without]
  constructor
  · intro h
    by_contra hnone
    rw [not_exists] at hnone
    -- all the others hold and the term does not
    have hfit : Fitting ctx ts.terms fun x => x.id ≠ term.id := fun p q hpq hp hq => by
      rw [hids q hpq.mem_right hq] at hpq
      exact hnone p ⟨hp, hpq⟩
    exact (h _ hfit).1 (fun x hx => hx.2) term hterm rfl
  · rintro ⟨other, hne, hentails⟩ v hv
    refine ⟨fun h x hx => ?_, fun h x hx => h x hx.1⟩
    by_cases hid : x.id = term.id
    · rw [hids x hx hid]
      exact hv other term hentails (h other ⟨hentails.mem_left, hne⟩)
    · exact h x ⟨hx, hid⟩

theorem mem_children_of_condition? {n c : Node} (h : n.condition? = some c) : c ∈ n.children := by
  unfold Node.condition? at h
  split at h <;> first | exact List.mem_of_mem_filter (List.mem_of_getElem? h) | cases h

/-- The conditions of a statement are parts of it. -/
theorem mem_preorder_of_mem_conditions {n c : Node} (h : c ∈ conditions n) : c ∈ n.preorder := by
  obtain ⟨m, hm, hc⟩ := List.mem_filterMap.1 h
  have hcondition := Node.mem_preorder_of_child (mem_children_of_condition? hc)
    (Node.mem_preorder_self c)
  rcases List.mem_cons.1 hm with rfl | hm
  · exact hcondition
  · exact Node.mem_preorder_of_child (List.mem_of_mem_filter hm) hcondition

/-- A term that is reported as ambiguous is one of several terms of a condition, which is as true as
these are together. Where one of them must hold the reported term can go, if equivalence carries over
among the subjects; where all of them must hold it can go only if some other term entails it. -/
theorem removable_of_ambiguous {ifStmt : NodeId} (ht : ctx.tree.Linked)
    (h : f ∈ rule.check ctx ifStmt) (hmessage : f.message = messageAmbiguous) :
    ∃ c ∈ conditions (ctx.tree.node ifStmt), ∃ term ∈ (Terms.ofCondition c).terms,
      f.anchor.id = term.id ∧
      (∀ v, Terms.Logical v → ((Terms.ofCondition c).Holds v ↔ v c)) ∧
      ((Terms.ofCondition c).isDisjunction = true ∧ (Coherent ctx (Terms.ofCondition c).terms →
          ∀ v, Fitting ctx (Terms.ofCondition c).terms v →
            (((Terms.ofCondition c).without term).Holds v ↔ (Terms.ofCondition c).Holds v)) ∨
        (Terms.ofCondition c).isConjunction = true ∧
          ((∀ v, Fitting ctx (Terms.ofCondition c).terms v →
            (((Terms.ofCondition c).without term).Holds v ↔ (Terms.ofCondition c).Holds v)) ↔
          ∃ other, other.id ≠ term.id ∧ Entails ctx (Terms.ofCondition c).terms other term)) := by
  obtain ⟨c, hc, hf⟩ := exists_condition_of_ambiguous h hmessage
  have hnode : ∀ x ∈ (Terms.ofCondition c).terms, ctx.tree.node x.id = x := fun x hx =>
    ht.node_of_mem_preorder (Node.mem_preorder_trans (mem_preorder_of_mem_conditions hc)
      (Terms.mem_preorder_of_mem_ofCondition hx))
  have hoperator := Terms.operator_ofCondition c
  obtain ⟨hlength, g, hg, ⟨term, name⟩, htest, other, hother, hanchor, hne, habove⟩ :=
    exists_of_mem_ambiguousInstanceof hf
  have hgroup : ∃ subject, (subject, (⟨term, name⟩ : TypeTest)) ∈
      typeTests ctx (Terms.ofCondition c).terms := by
    obtain ⟨first, rest, htests, hfirst, hrest⟩ := hg
    rw [htests, List.mem_cons] at htest
    rcases htest with rfl | htest
    · exact ⟨_, hfirst⟩
    · exact (hrest _ htest).imp fun _ => And.left
  obtain ⟨subject, hsubject⟩ := hgroup
  have hterm := mem_terms_of_mem_typeTests hsubject
  have hids : ∀ x ∈ (Terms.ofCondition c).terms, x.id = term.id → x = term := fun x hx hid => by
    rw [← hnode x hx, hid, hnode term hterm]
  refine ⟨c, hc, term, hterm, hanchor, fun v hv => Terms.holds_ofCondition hv c, ?_⟩
  rcases hoperator with hnone | ⟨op, hop, hconj | hdisj⟩
  · rw [Terms.length_of_operator_eq_none hnone] at hlength
    omega
  · exact .inr ⟨Terms.isConjunction_iff.2 ⟨op, hop, hconj⟩,
      holds_without_iff_of_isConjunction (Terms.isConjunction_iff.2 ⟨op, hop, hconj⟩) hterm hids⟩
  · have hdisj := Terms.isDisjunction_iff.2 ⟨op, hop, hdisj⟩
    refine .inl ⟨hdisj, fun hcoherent v hv => ?_⟩
    obtain ⟨s, s', hs, hs', hsame⟩ :=
      hcoherent.same_of_grouped hg htest hother fun heq => hne (heq ▸ rfl)
    exact holds_without_of_entails hdisj hids ⟨s, name, s', other.className, hs, hs', hsame, habove⟩
      hne hv

/-! Two type tests, the first one for a class below that of the second. -/

open BuildEvent in
def testEvents (name : String) : List BuildEvent :=
  [.start .binaryExpr, .start .variableExpr, .token .varName "$e", .finish,
    .token .instanceofKw "instanceof", .start .nameRef, .token .ident name, .finish, .finish]

/-- `if ($e instanceof TypeError && $e instanceof Error)`, with the operator as given. -/
def typeErrorAndError (op : Kind) (sign : String) : Tree :=
  .ofEvents ([.start .sourceFile, .start .ifStmt, .start .binaryExpr] ++ testEvents "TypeError"
    ++ [.token op sign] ++ testEvents "Error" ++ [.finish, .start .block, .finish, .finish, .finish])

theorem linked_typeErrorAndError (op : Kind) (sign : String) :
    (typeErrorAndError op sign).Linked := by
  rw [typeErrorAndError]
  exact (Tree.sound_ofEvents _).linked

def typeErrorAndErrorContext (op : Kind) (sign : String) : RuleContext :=
  let t := typeErrorAndError op sign
  (Analysis.new .standard).context t (Hierarchy.ofTree t).lookup

/-- Where both tests must hold the one for the class below is reported, and without it the condition
is another. -/
theorem exists_ambiguous_not_removable :
    ∃ (ctx : RuleContext) (ifStmt : NodeId), ctx.tree.Linked ∧
      ∃ f ∈ rule.check ctx ifStmt, f.message = messageAmbiguous ∧
        ∃ c ∈ conditions (ctx.tree.node ifStmt), ∃ term ∈ (Terms.ofCondition c).terms,
          f.anchor.id = term.id ∧ ∃ v : Node → Prop, Fitting ctx (Terms.ofCondition c).terms v ∧
            ((Terms.ofCondition c).without term).Holds v ∧ ¬(Terms.ofCondition c).Holds v := by
  have hrun : ∃ f ∈ rule.check (typeErrorAndErrorContext .amp2 "&&") 15,
      f.message = messageAmbiguous ∧
      ∃ c ∈ conditions ((typeErrorAndErrorContext .amp2 "&&").tree.node 15),
        ∃ term ∈ (Terms.ofCondition c).terms, f.anchor.id = term.id ∧
          Fitting (typeErrorAndErrorContext .amp2 "&&") (Terms.ofCondition c).terms
            (·.id ≠ term.id) ∧
          ((Terms.ofCondition c).without term).Holds (·.id ≠ term.id) ∧
          ¬(Terms.ofCondition c).Holds (·.id ≠ term.id) := by
    decide +kernel
  obtain ⟨f, hf, hmessage, c, hc, term, hterm, hanchor, hrest⟩ := hrun
  exact ⟨typeErrorAndErrorContext .amp2 "&&", 15, linked_typeErrorAndError .., f, hf, hmessage, c,
    hc, term, hterm, hanchor, _, hrest⟩

/-- Where one of the tests must hold, the one for the class below can go. -/
theorem removable_of_typeError_or_error :
    ∃ f ∈ rule.check (typeErrorAndErrorContext .pipe2 "||") 15, f.message = messageAmbiguous ∧
      ∃ c ∈ conditions ((typeErrorAndErrorContext .pipe2 "||").tree.node 15),
        ∃ term ∈ (Terms.ofCondition c).terms, f.anchor.id = term.id ∧
          ∀ v, Fitting (typeErrorAndErrorContext .pipe2 "||") (Terms.ofCondition c).terms v →
            (((Terms.ofCondition c).without term).Holds v ↔ (Terms.ofCondition c).Holds v) := by
  have hrun : ∃ f ∈ rule.check (typeErrorAndErrorContext .pipe2 "||") 15,
      f.message = messageAmbiguous := by
    decide +kernel
  have hcoherent : ∀ c ∈ conditions ((typeErrorAndErrorContext .pipe2 "||").tree.node 15),
      (Terms.ofCondition c).isDisjunction = true ∧
        Coherent (typeErrorAndErrorContext .pipe2 "||") (Terms.ofCondition c).terms := by
    decide +kernel
  obtain ⟨f, hf, hmessage⟩ := hrun
  have ht : (typeErrorAndErrorContext .pipe2 "||").tree.Linked := linked_typeErrorAndError ..
  obtain ⟨c, hc, term, hterm, hanchor, -, hremovable⟩ := removable_of_ambiguous ht hf hmessage
  refine ⟨f, hf, hmessage, c, hc, term, hterm, hanchor, ?_⟩
  rcases hremovable with ⟨-, hremovable⟩ | ⟨hconj, -⟩
  · exact hremovable (hcoherent c hc).2
  · have hdisj := (hcoherent c hc).1
    rw [Terms.isDisjunction_eq_false hconj] at hdisj
    cases hdisj

end PhpLint.IfConditions
