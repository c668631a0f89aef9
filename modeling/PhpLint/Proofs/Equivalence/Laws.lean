import PhpLint.Proofs.Equivalence.Sound
import PhpLint.Proofs.Parse.Shapes
import PhpLint.Proofs.Tree.Reading

/-! Agreement of codes is symmetric, and a code agrees with itself unless it stands for something
that cannot be compared: a literal that does not begin with a token, a number that is none. -/

namespace PhpLint

theorem Literal.Binary64.same_comm (x y : Binary64) : x.same y = y.same x := by
  cases x <;> cases y <;> try rfl
  case infinite.infinite s t => exact Bool.beq_comm
  case finite.finite s m t n =>
    rw [same, same, Bool.beq_comm (a := m), Bool.beq_comm (a := s)]
    by_cases hmn : n = m
    · rw [hmn]
    · rw [beq_eq_false_iff_ne.2 hmn, Bool.false_and, Bool.false_and]

theorem Literal.Binary64.same_self {x : Binary64} (h : x ≠ .nan) : x.same x = true := by
  cases x with
  | nan => exact absurd rfl h
  | infinite s => exact beq_self_eq_true s
  | finite s m => simp [same]

namespace Code

theorem integersAgree_comm (x y : String) : integersAgree x y = integersAgree y x := by
  unfold integersAgree
  cases Literal.integerValue? x <;> cases Literal.integerValue? y <;> exact Bool.beq_comm

theorem floatsAgree_comm (x y : String) : floatsAgree x y = floatsAgree y x := by
  unfold floatsAgree
  cases Literal.floatValue? x <;> cases Literal.floatValue? y
  case some.some => exact Literal.Binary64.same_comm ..
  all_goals exact Bool.beq_comm

theorem tokensAgree_comm (kind : Kind) (x y : String) :
    tokensAgree kind x y = tokensAgree kind y x := by
  unfold tokensAgree
  split
  · exact Bool.beq_comm
  · exact integersAgree_comm x y
  · exact floatsAgree_comm x y
  · rw [Bool.beq_comm (a := x)]

/-- Only tokens of one kind are compared. -/
theorem spelledTokensAgree_comm (k l : Kind) (x y : String) :
    (k == l && tokensAgree k x y) = (l == k && tokensAgree l y x) := by
  by_cases hkl : k = l
  · rw [hkl, tokensAgree_comm]
  · rw [beq_eq_false_iff_ne.2 hkl, beq_eq_false_iff_ne.2 (Ne.symm hkl), Bool.false_and,
      Bool.false_and]

theorem literalsAgree_comm (x y : Option (Kind × Option String)) :
    literalsAgree x y = literalsAgree y x := by
  unfold literalsAgree
  rcases x with _ | ⟨k, _ | x⟩ <;> rcases y with _ | ⟨l, _ | y⟩ <;> try rfl
  exact spelledTokensAgree_comm ..

theorem namesAgree_comm (x : String) (f : Bool) (y : String) (g : Bool) :
    namesAgree x f y g = namesAgree y g x f := by
  unfold namesAgree
  rw [Bool.and_comm, Bool.beq_comm (a := x), Bool.beq_comm (a := x.toLower)]

theorem agreeAll_comm {xs ys : List Code} (hxs : ∀ x ∈ xs, ∀ y, x.agree y = y.agree x) :
    agreeAll xs ys = agreeAll ys xs := by
  induction xs generalizing ys with
  | nil => cases ys <;> rfl
  | cons x xs ih =>
    cases ys with
    | nil => rfl
    | cons y ys =>
      rw [List.forall_mem_cons] at hxs
      rw [agreeAll, agreeAll, hxs.1 y, ih hxs.2]

theorem agreeElements_comm {xs ys : List (List Code)}
    (hxs : ∀ e ∈ xs, ∀ x ∈ e, ∀ y, x.agree y = y.agree x) :
    agreeElements xs ys = agreeElements ys xs := by
  induction xs generalizing ys with
  | nil => cases ys <;> rfl
  | cons x xs ih =>
    cases ys with
    | nil => rfl
    | cons y ys =>
      rw [List.forall_mem_cons] at hxs
      rw [agreeElements, agreeElements, agreeAll_comm hxs.1, ih hxs.2]

theorem agree_comm (x y : Code) : x.agree y = y.agree x := by
  induction x using Code.induction generalizing y with
  | token k x =>
    cases y <;> try rfl
    exact spelledTokensAgree_comm ..
  | literal x =>
    cases y <;> try rfl
    exact literalsAgree_comm ..
  | name x f =>
    cases y <;> try rfl
    exact namesAgree_comm ..
  | array xs ih =>
    cases y <;> try rfl
    exact agreeElements_comm ih
  | composite k o xs ih =>
    cases y <;> try rfl
    rename_i l p ys
    rw [agree, agree, agreeAll_comm ih, Bool.beq_comm (a := k), Bool.beq_comm (a := o)]

theorem tokensAgree_self {kind : Kind} {text : String}
    (h : kind = .floatNumber → Literal.floatValue? text ≠ some .nan) :
    tokensAgree kind text text = true := by
  unfold tokensAgree
  split
  · exact beq_self_eq_true _
  · unfold integersAgree
    cases Literal.integerValue? text <;> exact beq_self_eq_true _
  · unfold floatsAgree
    cases hvalue : Literal.floatValue? text with
    | none => exact beq_self_eq_true _
    | some x =>
      exact Literal.Binary64.same_self fun hnan => h rfl (hnan ▸ hvalue)
  · simp

theorem agreeAll_self {xs : List Code} (h : ∀ x ∈ xs, x.agree x = true) :
    agreeAll xs xs = true := by
  induction xs with
  | nil => rfl
  | cons x xs ih =>
    rw [List.forall_mem_cons] at h
    rw [agreeAll, h.1, ih h.2, Bool.and_self]

theorem agreeElements_self {xs : List (List Code)} (h : ∀ e ∈ xs, ∀ x ∈ e, x.agree x = true) :
    agreeElements xs xs = true := by
  induction xs with
  | nil => rfl
  | cons x xs ih =>
    rw [List.forall_mem_cons] at h
    rw [agreeElements, agreeAll_self h.1, ih h.2, Bool.and_self]

theorem exists_of_mem_ofAll {parent : Kind} {operator : Option Kind} {first : Bool}
    {cs : List Node} {x : Code} (h : x ∈ ofAll parent operator first cs) :
    ∃ c ∈ cs, ∃ folds, x = of folds c := by
  induction cs generalizing first with
  | nil => cases h
  | cons c cs ih =>
    rw [ofAll] at h
    split at h
    next =>
      obtain ⟨d, hd, hx⟩ := ih h
      exact ⟨d, List.mem_cons_of_mem c hd, hx⟩
    next =>
      rcases List.mem_cons.1 h with rfl | h
      · exact ⟨c, List.mem_cons_self, _, rfl⟩
      · obtain ⟨d, hd, hx⟩ := ih h
        exact ⟨d, List.mem_cons_of_mem c hd, hx⟩

theorem exists_of_mem_ofElements {cs : List Node} {e : List Code} (h : e ∈ ofElements cs) :
    ∃ c ∈ cs, e = ofAll .arrayElement none true c.children := by
  induction cs with
  | nil => cases h
  | cons c cs ih =>
    have hcs : e ∈ ofElements cs → ∃ d ∈ c :: cs, e = ofAll .arrayElement none true d.children :=
      fun h => (ih h).imp fun d hd => ⟨List.mem_cons_of_mem c hd.1, hd.2⟩
    obtain ⟨id, kind, word, inner⟩ := c
    rw [ofElements] at h
    split at h
    next =>
      rcases List.mem_cons.1 h with rfl | h
      · exact ⟨_, List.mem_cons_self, rfl⟩
      · exact hcs h
    next => exact hcs h

end Code

namespace Node

/-- A literal begins with a token, white space and comments aside, and a number with a point is a
number. -/
structure Comparable (n : Node) : Prop where
  literal : n.kind = .literal → n.isToken = false →
    ∃ first, n.solidChildren.head? = some first ∧ first.isToken = true
  float : n.kind = .floatNumber → ∀ text, n.token = some text →
    Literal.floatValue? text ≠ some .nan

variable {n : Node}

theorem Comparable.tokensAgree_self (h : n.Comparable) {text : String} (htext : n.token = some text) :
    Code.tokensAgree n.kind text text = true :=
  Code.tokensAgree_self fun hkind => h.float hkind text htext

theorem Comparable.literalsAgree_self (h : n.Comparable) (hkind : n.kind = .literal)
    (htoken : n.isToken = false) (hchildren : ∀ c ∈ n.children, c.Comparable) :
    Code.literalsAgree (n.solidChildren.head?.map fun t => (t.kind, t.token))
      (n.solidChildren.head?.map fun t => (t.kind, t.token)) = true := by
  obtain ⟨first, hfirst, hword⟩ := h.literal hkind htoken
  obtain ⟨text, htext⟩ := Option.isSome_iff_exists.1 hword
  have hmem : first ∈ n.children := List.mem_of_mem_filter (List.mem_of_head? hfirst)
  rw [hfirst, Option.map_some, htext, Code.literalsAgree,
    (hchildren first hmem).tokensAgree_self htext, beq_self_eq_true, Bool.and_self]

theorem agree_self_of_mem_ofAll {cs : List Node}
    (h : ∀ c ∈ cs, ∀ folds, (Code.of folds c).agree (Code.of folds c) = true) (parent : Kind)
    (operator : Option Kind) : ∀ x ∈ Code.ofAll parent operator true cs, x.agree x = true := by
  intro x hx
  obtain ⟨c, hc, folds, rfl⟩ := Code.exists_of_mem_ofAll hx
  exact h c hc folds

/-- A node is compared by itself and by what stands below it; the elements of an array are skipped on
the way down, so that the children alone do not tell. -/
theorem agree_self_of_below (h : n.Comparable) (hchildren : ∀ c ∈ n.children, c.Comparable)
    (hbelow : ∀ c ∈ n.children, ∀ m ∈ c.preorder, ∀ folds,
      (Code.of folds m).agree (Code.of folds m) = true) (folds : Bool) :
    (Code.of folds n).agree (Code.of folds n) = true := by
  have hcodes : ∀ c ∈ n.children, ∀ folds, (Code.of folds c).agree (Code.of folds c) = true :=
    fun c hc => hbelow c hc c (mem_preorder_self c)
  obtain ⟨id, kind, word, children⟩ := n
  have htoken : ∀ text, word = some text →
      (Code.token kind text).agree (.token kind text) = true := fun text htext => by
    simp only [Code.agree, beq_self_eq_true, Bool.true_and, h.tokensAgree_self htext]
  have hcomposite : ∀ operator, (Code.composite kind operator
      (Code.ofAll kind operator true children)).agree (.composite kind operator
        (Code.ofAll kind operator true children)) = true := fun operator => by
    simp only [Code.agree, beq_self_eq_true, Bool.true_and,
      Code.agreeAll_self (agree_self_of_mem_ofAll hcodes kind operator)]
  rw [Code.of.eq_def]
  dsimp only
  cases hshape : Code.shapeOf kind word with
  | group =>
    dsimp only
    cases hinner : Code.ofOperand children with
    | some inner =>
      rw [Code.ofOperand_eq] at hinner
      obtain ⟨c, hc, rfl⟩ := Option.map_eq_some_iff.1 hinner
      exact hcodes c (List.mem_of_find?_eq_some hc) false
    | none =>
      cases word with
      | some text => exact htoken text rfl
      | none => exact hcomposite _
  | token text =>
    refine htoken text ?_
    unfold Code.shapeOf at hshape
    split at hshape <;> cases hshape
    rfl
  | literal =>
    have hliteral : kind = .literal ∧ word = none := by
      unfold Code.shapeOf at hshape
      split at hshape <;> cases hshape
      exact ⟨rfl, rfl⟩
    obtain ⟨rfl, rfl⟩ := hliteral
    exact h.literalsAgree_self rfl rfl hchildren
  | name => simp only [Code.agree, Code.namesAgree, beq_self_eq_true, ite_self]
  | array =>
    refine Code.agreeElements_self fun e he => ?_
    obtain ⟨c, hc, rfl⟩ := Code.exists_of_mem_ofElements he
    exact agree_self_of_mem_ofAll (fun d hd => hbelow c hc d
      (mem_preorder_of_child hd (mem_preorder_self d))) .arrayElement none
  | composite => exact hcomposite _

/-- The code of a subtree that can be compared agrees with itself. -/
theorem agree_self (h : ∀ m ∈ n.preorder, m.Comparable) :
    ∀ m ∈ n.preorder, ∀ folds, (Code.of folds m).agree (Code.of folds m) = true := by
  induction n using Node.induction with
  | mk id kind word children ih =>
    have hbelow : ∀ c ∈ children, ∀ m ∈ c.preorder, m.Comparable := fun c hc m hm =>
      h m (mem_preorder_of_child (n := ⟨id, kind, word, children⟩) hc hm)
    have hself := agree_self_of_below (h _ (mem_preorder_self _))
      (fun c hc => hbelow c hc c (mem_preorder_self c)) fun c hc => ih c hc (hbelow c hc)
    intro m hm
    rw [preorder_eq, List.mem_cons, List.mem_flatMap] at hm
    rcases hm with rfl | ⟨c, hc, hm⟩
    · exact hself
    · exact ih c hc (hbelow c hc) m hm

end Node

namespace Tree

variable {t u : Tree} {a b id n : NodeId}

/-- What stands at a name can be compared. -/
structure ComparableAt (t : Tree) (id : NodeId) : Prop where
  literal : t.kind id = .literal → t.isToken id = false →
    ∃ first, (t.solidChildren id).head? = some first ∧ t.isToken first = true
  float : t.kind id = .floatNumber → ∀ text, t.tokenText? id = some text →
    Literal.floatValue? text ≠ some .nan

theorem ComparableAt.node {m : Node} (h : t.ComparableAt m.id) (hm : Slots.Holds t.slots m) :
    m.Comparable where
  literal := fun hkind htoken => by
    obtain ⟨first, hfirst, hword⟩ :=
      h.literal ((kind_of_holds hm).trans hkind) ((isToken_of_holds hm).trans htoken)
    rw [solidChildren_of_holds hm, List.head?_map] at hfirst
    obtain ⟨c, hc, rfl⟩ := Option.map_eq_some_iff.1 hfirst
    have hmem : c ∈ m.children := List.mem_of_mem_filter (List.mem_of_head? hc)
    exact ⟨c, hc, (isToken_of_holds (hm.of_mem hmem)).symm.trans hword⟩
  float := fun hkind text htext =>
    h.float ((kind_of_holds hm).trans hkind) text (hm.text_eq.trans htext)

theorem Linked.comparable_node (h : t.Linked) (hn : ∀ m, t.Within m n → t.ComparableAt m) :
    ∀ m ∈ (t.node n).preorder, m.Comparable := by
  intro m hm
  by_cases hsize : n < t.size
  · have hholds := h.holds_node hsize
    exact (hn m.id (h.within_of_mem_preorder_node hm)).node (hholds.of_mem_preorder hm)
  · rw [node_of_size_le (Nat.le_of_not_lt hsize), Node.preorder_eq, List.flatMap_nil,
      List.mem_singleton] at hm
    subst hm
    exact ⟨nofun, nofun⟩

/-- A literal of a lowered tree. -/
theorem exists_first_of_shaped {gs : List Green} (h : Lower.Shaped True gs)
    {m : Node} (hm : m ∈ (Green.node .sourceFile gs).toTree.rootNode.preorder)
    (hkind : m.kind = .literal) (htoken : m.token = none) :
    ∃ first, m.solidChildren.head? = some first ∧ first.isToken = true := by
  have hnode := Node.mem_nodes_green (Green.rootNode_bare _) hm htoken
  rw [Green.green_rootNode, Green.nodes, List.mem_cons, hkind] at hnode
  have hmem := hnode.resolve_left fun heq => by cases (Prod.mk.inj heq).1
  obtain ⟨kind, text, hone, htrivia⟩ := ((h.nodes _ hmem).2 rfl).resolve_right fun h => h.1 trivial
  obtain ⟨c, hc, hgreen⟩ := List.map_eq_singleton_iff.1 hone
  obtain ⟨id, ckind, token, children⟩ := c
  cases token with
  | none => cases hgreen
  | some text =>
    cases hgreen
    refine ⟨⟨id, kind, some text, children⟩, ?_, rfl⟩
    rw [Node.solidChildren, hc, List.filter_cons_of_pos (by simpa [Node.isTrivia] using htrivia rfl)]
    rfl

/-- The literals of a lowered tree can be compared, so it is for its numbers alone to be numbers. -/
theorem Lowered.comparableAt (h : t.Lowered) (hid : t.Within id t.root)
    (hfloat : t.kind id = .floatNumber → ∀ text, t.tokenText? id = some text →
      Literal.floatValue? text ≠ some .nan) : t.ComparableAt id := by
  obtain ⟨gs, rfl, hshaped⟩ := h.exists_shaped
  have hsound := Green.sound_toTree (Green.node .sourceFile gs)
  refine ⟨fun hkind htoken => ?_, hfloat⟩
  obtain ⟨m, hm, rfl, hholds⟩ :=
    Green.exists_mem_preorder ((hsound.linked.mem_preorder hsound.root_lt_size).2 hid)
  rw [kind_of_holds hholds] at hkind
  rw [isToken_of_holds hholds] at htoken
  obtain ⟨first, hfirst, hword⟩ :=
    exists_first_of_shaped hshaped hm hkind (by simpa [Node.isToken] using htoken)
  have hmem : first ∈ m.children := List.mem_of_mem_filter (List.mem_of_head? hfirst)
  refine ⟨first.id, ?_, (isToken_of_holds (hholds.of_mem hmem)).trans hword⟩
  rw [solidChildren_of_holds hholds, List.head?_map, hfirst]
  rfl

/-- Equivalence is symmetric, between any two trees. It is reflexive at every node below which
literals begin with a token and numbers are numbers; of these the trees of files, snippets and
fragments need no more than the latter. -/
theorem equivalentAcross_comm_and_equivalent_self :
    (∀ (t u : Tree) (a b : NodeId), t.equivalentAcross a u b = u.equivalentAcross b t a) ∧
      (∀ t : Tree, t.Linked → ∀ n, (∀ m, t.Within m n → t.ComparableAt m) →
        t.equivalent n n = true) ∧
      ∀ t : Tree, t.Lowered → (∀ id, t.kind id = .floatNumber → ∀ text, t.tokenText? id = some text →
        Literal.floatValue? text ≠ some .nan) → ∀ n, t.Within n t.root → t.equivalent n n = true := by
  have hself : ∀ t : Tree, t.Linked → ∀ n, (∀ m, t.Within m n → t.ComparableAt m) →
      t.equivalent n n = true := fun t ht n hn =>
    Node.agree_self (ht.comparable_node hn) _ (Node.mem_preorder_self _) _
  refine ⟨fun t u a b => Code.agree_comm .., hself, fun t ht hfloat n hn => ?_⟩
  obtain ⟨gs, rfl, -⟩ := ht.exists_shaped
  exact hself _ (Green.sound_toTree _).linked n fun m hm =>
    ht.comparableAt (hm.trans hn) (hfloat m)

/-- A number with a comment in front of it. -/
def commentedHalf : Tree :=
  ofEvents [.start .literal, .token .comment "/* half */", .token .floatNumber "0.5", .finish]

theorem comparableAt_commentedHalf (m : NodeId) : commentedHalf.ComparableAt m := by
  match m with
  | 0 => exact ⟨by decide, by decide⟩
  | 1 =>
    refine ⟨by decide, fun _ text htext => ?_⟩
    obtain rfl : "0.5" = text := Option.some.inj htext
    decide +kernel
  | 2 => exact ⟨fun _ _ => ⟨1, by decide, by decide⟩, by decide⟩
  | m + 3 => exact ⟨nofun, nofun⟩

/-- The tree of an inclusion comes from a regular file, and its one number is a whole one. -/
theorem lowered_inclusion : (inclusion "include").Lowered := by
  have hascii : ∀ c ∈ "<?php include 1;".toList, c.utf8Size = 1 := by simp [Char.utf8Size]
  have hchained : (inclusionFile "include" "include_expression").Chained := by
    simp [inclusionFile, Parse.piece]
  have hparse : Fragment.parse (fun _ => some (inclusionFile "include" "include_expression"))
      "include 1" .expression = .ok ⟨inclusion "include", 4⟩ := by decide +kernel
  refine .fragment (fun source root hwrapped hroot => ?_) hparse
  cases hroot
  cases hwrapped
  have hsource : Parse.tagBefore ++ "include 1" ++ ";" = "<?php include 1;" := by decide
  exact hsource ▸ ⟨(readable_inclusionFile hascii (by decide) (by decide)).proper, hchained⟩

theorem equivalent_self_of_number_and_inclusion :
    commentedHalf.equivalentAcross 2 (inclusion "include") 4 =
        (inclusion "include").equivalentAcross 4 commentedHalf 2 ∧
      commentedHalf.equivalent 2 2 = true ∧ (inclusion "include").equivalent 4 4 = true := by
  obtain ⟨hcomm, hself, hlowered⟩ := equivalentAcross_comm_and_equivalent_self
  have hwhole : ∀ id, (inclusion "include").kind id ≠ .floatNumber
    | 0 | 1 | 2 | 3 | 4 | 5 | _ + 6 => nofun
  have hunder : (inclusion "include").Under 4 (inclusion "include").root := rfl
  exact ⟨hcomm .., hself _ (sound_ofEvents _).linked 2 fun m _ => comparableAt_commentedHalf m,
    hlowered _ lowered_inclusion (fun id hkind => absurd hkind (hwhole id)) 4 (.of_under hunder)⟩

end Tree

end PhpLint
