import PhpLint.Cost
import PhpLint.Proofs.Equivalence.Plain
import PhpLint.Proofs.Related
import PhpLint.Proofs.Tree.Kinded
import PhpLint.Proofs.Tree.Reading

/-! Expressions that compute the same cost the same. The code of a node is that of what stands in
its parentheses, and so is its cost; inside their parentheses two nodes that agree are of one kind,
their children agree in turn, and what they call has the same name but for its case. The cost skips
tokens where the code skips white space and comments, and it looks for names and argument lists
without looking into parentheses: the two read the same only in trees where this makes no
difference. -/

namespace PhpLint

namespace Code

variable {parent : Kind} {operator : Option Kind} {first : Bool} {x y : Code}

/-- The kind of node a code is read off. -/
def kind : Code → Kind
  | .token kind _ | .composite kind _ _ => kind
  | .literal _ => .literal
  | .name .. => .nameRef
  | .array _ => .arrayExpr

def isToken : Code → Bool
  | .token .. => true
  | _ => false

theorem head_eq_of_agree (h : x.agree y = true) : x.kind = y.kind ∧ x.isToken = y.isToken := by
  cases x <;> cases y <;>
    simp only [agree, Bool.and_eq_true, beq_iff_eq, Bool.false_eq_true] at h
  case token.token => exact ⟨h.1, rfl⟩
  case composite.composite => exact ⟨h.1.1, rfl⟩
  all_goals exact ⟨rfl, rfl⟩

/-- A code tells the kind of what stands in the parentheses, and whether that is a token. -/
theorem head_of (folds : Bool) (n : Node) : (of folds n).kind = n.unparenthesized.kind ∧
    (of folds n).isToken = n.unparenthesized.isToken := by
  obtain ⟨folds', heq⟩ := exists_of_unparenthesized n folds
  have hnone := Node.operand?_unparenthesized (n := n)
  rw [heq]
  generalize n.unparenthesized = m at hnone ⊢
  by_cases hparen : m.kind = .parenExpr
  · rw [of_paren hparen, hnone hparen, Node.isToken, hparen]
    cases m.token <;> exact ⟨rfl, rfl⟩
  · obtain ⟨id, kind, word, children⟩ := m
    rw [of.eq_def]
    cases word <;> cases kind <;> first | exact ⟨rfl, rfl⟩ | exact absurd rfl hparen

theorem of_name {n : Node} (hkind : n.kind = .nameRef) (htoken : n.token = none) (folds : Bool) :
    of folds n = .name (bareName n.text) folds := by
  obtain ⟨id, kind, word, children⟩ := n
  cases hkind
  cases htoken
  rw [of]
  rfl

/-- A code among those of the children of a node of the kind `parent`. -/
def Reads (parent : Kind) (n : Node) (x : Code) : Prop :=
  ∃ folds, x = of folds n ∧ (parent = .callExpr → folds = true)

theorem forall₂_ofAll (cs : List Node) : List.Forall₂ (Reads parent)
    (cs.filter (!·.isTrivia)) (ofAll parent operator first cs) := by
  induction cs generalizing first with
  | nil => exact .nil
  | cons c cs ih =>
    rw [ofAll, List.filter_cons]
    cases c.isTrivia with
    | true => exact ih
    | false => exact .cons ⟨_, rfl, fun hcall => by rw [hcall]; rfl⟩ ih

end Code

theorem Cost.cost_of_paren (cheap : List String) {n : Node} (h : n.kind = .parenExpr) :
    cost cheap n = (n.operand?.map (cost cheap)).getD 0 := by
  have hcost : cost cheap n = costFirst cheap n.children := by
    obtain ⟨id, kind, word, children⟩ := n
    cases h
    rw [cost]
  rw [hcost, costFirst_eq, Node.operand?_eq_find? h, List.head?_filter]

namespace Node

/-- White space and comments are tokens, no parentheses hold a bare name or an argument list, and
tokens are leaves, unless they are of a kind that has a cost of its own. -/
structure Regular (n : Node) : Prop where
  trivia : n.isTrivia = true → n.isToken = true
  operand : n.kind = .parenExpr → ∀ inner, n.operand? = some inner →
    inner.kind ≠ .nameRef ∧ inner.kind ≠ .argList
  leaf : n.isToken = true → n.kind.isToken = true ∨ n.children = []

variable {n a b c : Node} {folds : Bool}

theorem cost_unparenthesized (cheap : List String) (n : Node) :
    Cost.cost cheap n.unparenthesized = Cost.cost cheap n := by
  fun_induction unparenthesized n with
  | case1 n hkind inner hinner ih => rw [ih, Cost.cost_of_paren cheap hkind, hinner]; rfl
  | case2 | case3 => rfl

/-- White space and comments are not among the nodes if they are tokens. -/
theorem childNodes_eq_filter_solidChildren
    (h : ∀ c ∈ n.children, c.isTrivia = true → c.isToken = true) :
    n.childNodes = n.solidChildren.filter (!·.isToken) := by
  rw [childNodes, solidChildren, List.filter_filter]
  refine List.filter_congr fun c hc => ?_
  have htrivia := h c hc
  cases htoken : c.isToken <;> cases hblank : c.isTrivia <;> simp_all

theorem isToken_unparenthesized
    (h : n.isToken = true → n.kind.isToken = true ∨ n.children = []) :
    n.unparenthesized.isToken = n.isToken := by
  by_cases hparen : n.kind = .parenExpr
  · cases htoken : n.token with
    | none => rw [isToken, isToken, token_unparenthesized htoken, htoken]
    | some text =>
      have hleaf : n.children = [] := (h (by rw [isToken, htoken]; rfl)).resolve_left
        (by rw [hparen]; decide)
      have hnone : n.operand? = none := Option.eq_none_iff_forall_ne_some.2 fun inner hinner => by
        have hmem := mem_children_of_operand? hinner
        rw [hleaf] at hmem
        cases hmem
      rw [unparenthesized_of_operand?_eq_none hnone]
  · rw [unparenthesized_of_kind_ne hparen]

section Regular

variable (h : ∀ m ∈ n.preorder, m.Regular)

include h

theorem regular_of_child (hc : c ∈ n.children) : ∀ m ∈ c.preorder, m.Regular := fun m hm =>
  h m (mem_preorder_of_child hc hm)

theorem kind_unparenthesized_ne (hparen : n.kind = .parenExpr) :
    n.unparenthesized.kind ≠ .nameRef ∧ n.unparenthesized.kind ≠ .argList := by
  fun_induction unparenthesized n with
  | case1 n hkind inner hinner ih =>
    by_cases hagain : inner.kind = .parenExpr
    · exact ih (regular_of_child h (mem_children_of_operand? hinner)) hagain
    · rw [unparenthesized_of_kind_ne hagain]
      exact (h n (mem_preorder_self n)).operand hkind inner hinner
  | case2 n hkind hnone => rw [hkind]; decide
  | case3 n hkind => exact absurd hparen hkind

/-- Names and argument lists are found where they stand, or not at all. -/
theorem beq_kind_unparenthesized {kind : Kind} (hkind : kind = .nameRef ∨ kind = .argList) :
    (n.kind == kind) = (n.unparenthesized.kind == kind) := by
  by_cases hparen : n.kind = .parenExpr
  · obtain ⟨hname, hlist⟩ := kind_unparenthesized_ne h hparen
    rcases hkind with rfl | rfl
    · rw [beq_eq_false_iff_ne.2 hname, hparen]; rfl
    · rw [beq_eq_false_iff_ne.2 hlist, hparen]; rfl
  · rw [unparenthesized_of_kind_ne hparen]

theorem regular_child (hc : c ∈ n.children) : c.Regular :=
  h c (mem_preorder_of_child hc (mem_preorder_self c))

end Regular

theorem argList?_eq_find? (n : Node) : n.argList? = n.solidChildren.find? (·.kind == .argList) := by
  rw [argList?, firstOfKind?, solidChildren, ← List.head?_filter, ← List.head?_filter,
    List.filter_filter]
  refine congrArg List.head? (List.filter_congr fun c _ => ?_)
  cases hkind : c.kind == .argList with
  | false => rfl
  | true => rw [isTrivia, beq_iff_eq.1 hkind]; rfl

/-- The codes of two nodes agree, each read in some place; if `folds`, in places where a name may
vary in case. -/
def Agrees (folds : Bool) (a b : Node) : Prop :=
  ∃ f g, (Code.of f a).agree (Code.of g b) = true ∧ (folds = true → f = true ∧ g = true)

theorem agrees_of_agreeAll {parent : Kind} {xs ys : List Code} {cs ds : List Node}
    (hcs : List.Forall₂ (Code.Reads parent) cs xs) (hds : List.Forall₂ (Code.Reads parent) ds ys)
    (h : Code.agreeAll xs ys = true) : List.Forall₂ (Agrees (parent == .callExpr)) cs ds := by
  induction hcs generalizing ds ys with
  | nil =>
    cases hds with
    | nil => exact .nil
    | cons => cases h
  | cons hc hcs ih =>
    cases hds with
    | nil => cases h
    | cons hd hds =>
      rw [Code.agreeAll, Bool.and_eq_true] at h
      obtain ⟨f, rfl, hf⟩ := hc
      obtain ⟨g, rfl, hg⟩ := hd
      exact .cons ⟨f, g, h.1, fun hcall => ⟨hf (beq_iff_eq.1 hcall), hg (beq_iff_eq.1 hcall)⟩⟩
        (ih hds h.2)

namespace Agrees

theorem mono (h : Agrees folds a b) : Agrees false a b :=
  let ⟨f, g, hagree, _⟩ := h
  ⟨f, g, hagree, nofun⟩

theorem kind_unparenthesized_eq (h : Agrees folds a b) :
    a.unparenthesized.kind = b.unparenthesized.kind := by
  obtain ⟨f, g, hagree, -⟩ := h
  rw [← (Code.head_of f a).1, ← (Code.head_of g b).1, (Code.head_eq_of_agree hagree).1]

theorem isToken_eq (h : Agrees folds a b)
    (ha : a.isToken = true → a.kind.isToken = true ∨ a.children = [])
    (hb : b.isToken = true → b.kind.isToken = true ∨ b.children = []) :
    a.isToken = b.isToken := by
  obtain ⟨f, g, hagree, -⟩ := h
  rw [← isToken_unparenthesized ha, ← isToken_unparenthesized hb, ← (Code.head_of f a).2,
    ← (Code.head_of g b).2, (Code.head_eq_of_agree hagree).2]

/-- Parentheses on the left may be dropped. -/
theorem of_operand? (h : Agrees folds a b) (hkind : a.kind = .parenExpr)
    (hc : a.operand? = some c) : Agrees false c b := by
  obtain ⟨f, g, hagree, -⟩ := h
  rw [Code.of_paren hkind, hc] at hagree
  exact ⟨false, g, hagree, nofun⟩

theorem unparenthesized_right (h : Agrees folds a b) : Agrees false a b.unparenthesized := by
  obtain ⟨f, g, hagree, -⟩ := h
  obtain ⟨g', heq⟩ := Code.exists_of_unparenthesized b g
  exact ⟨f, g', heq ▸ hagree, nofun⟩

/-- Nodes that agree have one operator, and their children agree one by one. -/
theorem composite (h : Agrees folds a b) (ha : a.token = none) (hb : b.token = none)
    (hsame : a.kind = b.kind) (hkind : a.kind ≠ .parenExpr ∧ a.kind ≠ .literal ∧
      a.kind ≠ .nameRef ∧ a.kind ≠ .arrayExpr) : a.operatorKind? = b.operatorKind? ∧
    List.Forall₂ (Agrees (a.kind == .callExpr)) a.solidChildren b.solidChildren := by
  obtain ⟨f, g, hagree, -⟩ := h
  rw [Code.of_node ha hkind, Code.of_node hb (hsame ▸ hkind), Code.agree, Bool.and_eq_true,
    Bool.and_eq_true] at hagree
  exact ⟨beq_iff_eq.1 hagree.1.2,
    agrees_of_agreeAll (Code.forall₂_ofAll _) (hsame ▸ Code.forall₂_ofAll _) hagree.2⟩

variable (h : Agrees folds a b) (ha : ∀ m ∈ a.preorder, m.Regular)
  (hb : ∀ m ∈ b.preorder, m.Regular)

include h ha hb

theorem beq_kind {kind : Kind} (hkind : kind = .nameRef ∨ kind = .argList) :
    (a.kind == kind) = (b.kind == kind) := by
  rw [beq_kind_unparenthesized ha hkind, beq_kind_unparenthesized hb hkind,
    h.kind_unparenthesized_eq]

variable (hsame : a.kind = b.kind) (hcomposite : a.kind.isToken = false)
  (hkind : a.kind ≠ .parenExpr ∧ a.kind ≠ .literal ∧ a.kind ≠ .nameRef ∧ a.kind ≠ .arrayExpr)

include hsame hcomposite hkind

/-- Tokens have no children, and those of other nodes are compared one by one. -/
theorem solidChildren : List.Forall₂ (fun c d => Agrees (a.kind == .callExpr) c d ∧
    (∀ m ∈ c.preorder, m.Regular) ∧ ∀ m ∈ d.preorder, m.Regular)
      a.solidChildren b.solidChildren := by
  have hagrees : List.Forall₂ (Agrees (a.kind == .callExpr)) a.solidChildren b.solidChildren := by
    have hra := ha a (mem_preorder_self a)
    have hrb := hb b (mem_preorder_self b)
    have htokens := h.isToken_eq hra.leaf hrb.leaf
    cases htoken : a.isToken with
    | true =>
      have hleaf := (hra.leaf htoken).resolve_left (by simp [hcomposite])
      have hleaf' := (hrb.leaf (htokens ▸ htoken)).resolve_left (by simp [← hsame, hcomposite])
      rw [Node.solidChildren, hleaf, Node.solidChildren, hleaf']
      exact .nil
    | false =>
      have hnone : ∀ {m : Node}, m.isToken = false → m.token = none := fun hm => by
        simpa [isToken] using hm
      exact (h.composite (hnone htoken) (hnone (htokens ▸ htoken)) hsame hkind).2
  refine hagrees.and_mem.imp fun c d hcd => ⟨hcd.1, ?_, ?_⟩
  · exact regular_of_child ha (List.mem_of_mem_filter hcd.2.1)
  · exact regular_of_child hb (List.mem_of_mem_filter hcd.2.2)

theorem childNodes : List.Forall₂ (fun c d => Agrees (a.kind == .callExpr) c d ∧
    (∀ m ∈ c.preorder, m.Regular) ∧ ∀ m ∈ d.preorder, m.Regular) a.childNodes b.childNodes := by
  rw [childNodes_eq_filter_solidChildren fun _ hc => (regular_child ha hc).trivia,
    childNodes_eq_filter_solidChildren fun _ hc => (regular_child hb hc).trivia]
  refine (h.solidChildren ha hb hsame hcomposite hkind).filter_of_eq fun {c d} hcd => ?_
  rw [hcd.1.isToken_eq (hcd.2.1 c (mem_preorder_self c)).leaf
    (hcd.2.2 d (mem_preorder_self d)).leaf]

theorem arguments : List.Forall₂ (fun c d => Agrees false c d ∧
    (∀ m ∈ c.preorder, m.Regular) ∧ ∀ m ∈ d.preorder, m.Regular) a.arguments b.arguments := by
  have hlist := (h.solidChildren ha hb hsame hcomposite hkind).find? (p := fun c => c.kind == .argList)
    (q := fun c => c.kind == .argList) fun hcd => hcd.1.beq_kind hcd.2.1 hcd.2.2 (.inr rfl)
  rw [Node.arguments, Node.arguments, argList?_eq_find?, argList?_eq_find?]
  rcases hlist.eq_or with ⟨hl, hl'⟩ | ⟨l, l', hl, hl', hagrees, hrl, hrl'⟩
  · rw [hl, hl']
    exact .nil
  · have hkinds : l.kind = .argList ∧ l'.kind = .argList :=
      ⟨by simpa using List.find?_some hl, by simpa using List.find?_some hl'⟩
    rw [hl, hl']
    refine (hagrees.childNodes hrl hrl' (hkinds.1.trans hkinds.2.symm) ?_ ?_).imp fun c d hcd =>
      ⟨hcd.1.mono, hcd.2⟩
    all_goals
      rw [hkinds.1]
      decide

/-- Called functions have the same name, but for its case. -/
theorem functionCost_eq (cheap : List String) (hcall : a.kind = .callExpr) :
    Cost.functionCost cheap a = Cost.functionCost cheap b := by
  have hcallee : Option.Rel (fun c d => (Code.bareName c.text).toLower =
      (Code.bareName d.text).toLower) a.calleeRef? b.calleeRef? := by
    rw [calleeRef?, calleeRef?, ← hsame, hcall]
    have hfirst := ((h.childNodes ha hb hsame hcomposite hkind).and_mem.getElem? 0).filter
      (p := fun c => c.kind == .nameRef) (q := fun c => c.kind == .nameRef) fun hcd =>
        hcd.1.1.beq_kind hcd.1.2.1 hcd.1.2.2 (.inl rfl)
    rcases hfirst.eq_or with ⟨hc, hd⟩ | ⟨c, d, hc, hd, ⟨hagrees, -⟩, hmemc, hmemd⟩
    · rw [hc, hd]
      exact .none
    · obtain ⟨f, g, hagree, hfolds⟩ := hagrees
      obtain ⟨rfl, rfl⟩ := hfolds (beq_iff_eq.2 hcall)
      rw [hc, hd]
      have hnamec := beq_iff_eq.1 (Option.filter_eq_some_iff.1 hc).2
      have hnamed := beq_iff_eq.1 (Option.filter_eq_some_iff.1 hd).2
      rw [Code.of_name hnamec (token_of_mem_childNodes hmemc),
        Code.of_name hnamed (token_of_mem_childNodes hmemd)] at hagree
      exact .some (beq_iff_eq.1 hagree)
  have hany : ∀ n : Node, (n.calleeName?.any fun name => cheap.contains name.toLower) =
      n.calleeRef?.any fun c => cheap.contains (Code.bareName c.text).toLower := fun n => by
    rw [calleeName?]
    cases n.calleeRef? <;> rfl
  rw [Cost.functionCost, Cost.functionCost, hany, hany, hcallee.any_eq fun hcd => by rw [hcd]]

end Agrees

variable {cheap : List String}

/-- Either the equivalence compares all that a cost is made of, or the kind alone tells the cost. -/
theorem Agrees.cost_eq_of_below (h : Agrees folds a b) (ha : ∀ m ∈ a.preorder, m.Regular)
    (hb : ∀ m ∈ b.preorder, m.Regular) (hsame : a.kind = b.kind)
    (hparen : a.kind = .parenExpr → a.operand? = none ∧ b.operand? = none)
    (hchild : ∀ c ∈ a.childNodes, ∀ {d}, (∀ m ∈ d.preorder, m.Regular) → Agrees false c d →
      Cost.cost cheap c = Cost.cost cheap d)
    (hargument : ∀ c ∈ a.arguments, ∀ {d}, (∀ m ∈ d.preorder, m.Regular) → Agrees false c d →
      Cost.cost cheap c = Cost.cost cheap d) : Cost.cost cheap a = Cost.cost cheap b := by
  by_cases hcompared : a.kind.isToken = false ∧ a.kind ≠ .parenExpr ∧ a.kind ≠ .literal ∧
      a.kind ≠ .nameRef ∧ a.kind ≠ .arrayExpr
  · obtain ⟨hcomposite, hkind⟩ := hcompared
    refine Cost.cost_congr hsame (h.functionCost_eq ha hb hsame hcomposite hkind cheap) ?_ ?_
    · exact (h.childNodes ha hb hsame hcomposite hkind).and_mem.map_eq fun hcd =>
        hchild _ hcd.2.1 hcd.1.2.2 hcd.1.1.mono
    · exact (h.arguments ha hb hsame hcomposite hkind).and_mem.map_eq fun hcd =>
        hargument _ hcd.2.1 hcd.1.2.2 hcd.1.1
  · by_cases hparens : a.kind = .parenExpr
    · obtain ⟨hnone, hnone'⟩ := hparen hparens
      rw [Cost.cost_of_paren cheap hparens, Cost.cost_of_paren cheap (hsame ▸ hparens), hnone, hnone']
    · obtain ⟨id, kind, word, children⟩ := a
      obtain ⟨id', kind', word', children'⟩ := b
      cases hsame
      dsimp only at hcompared
      rw [Cost.cost.eq_def, Cost.cost.eq_def]
      cases kind <;> first | rfl | exact absurd rfl hparens | exact absurd (by decide) hcompared

/-- Arguments are children of a child, so the induction is on all nodes of a subtree. -/
theorem Agrees.cost_eq (n : Node) (hn : ∀ m ∈ n.preorder, m.Regular) :
    ∀ a ∈ n.preorder, ∀ {b : Node}, (∀ m ∈ b.preorder, m.Regular) → Agrees false a b →
      Cost.cost cheap a = Cost.cost cheap b := by
  induction n using Node.induction with
  | mk id kind word children ih =>
    have hbelow : ∀ c ∈ children, ∀ a ∈ c.preorder, ∀ {b : Node}, (∀ m ∈ b.preorder, m.Regular) →
        Agrees false a b → Cost.cost cheap a = Cost.cost cheap b := fun c hc =>
      ih c hc (regular_of_child hn hc)
    intro a ha b hb hagrees
    rw [preorder_eq, List.mem_cons, List.mem_flatMap] at ha
    rcases ha with rfl | ⟨c, hc, ha⟩
    · by_cases hoperand : kind = .parenExpr ∧
          (⟨id, kind, word, children⟩ : Node).operand?.isSome = true
      · obtain ⟨hparen, hsome⟩ := hoperand
        obtain ⟨inner, hinner⟩ := Option.isSome_iff_exists.1 hsome
        rw [Cost.cost_of_paren cheap hparen, hinner]
        exact hbelow inner (mem_children_of_operand? hinner) inner (mem_preorder_self inner) hb
          (hagrees.of_operand? hparen hinner)
      · have hnone : kind = .parenExpr → (⟨id, kind, word, children⟩ : Node).operand? = none :=
          fun hparen => by simpa using fun hsome => hoperand ⟨hparen, hsome⟩
        have hself : (⟨id, kind, word, children⟩ : Node).unparenthesized =
            ⟨id, kind, word, children⟩ := by
          by_cases hparen : kind = .parenExpr
          · exact unparenthesized_of_operand?_eq_none (hnone hparen)
          · exact unparenthesized_of_kind_ne hparen
        have hsame := hagrees.kind_unparenthesized_eq
        rw [hself] at hsame
        rw [← cost_unparenthesized cheap b]
        refine hagrees.unparenthesized_right.cost_eq_of_below hn
          (fun m hm => hb m (mem_preorder_trans b.unparenthesized_mem_preorder hm)) hsame
          (fun hparen => ⟨hnone hparen, operand?_unparenthesized (hsame ▸ hparen)⟩)
          (fun c hc => ?_) fun c hc => ?_
        · exact hbelow c (List.mem_of_mem_filter hc) c (mem_preorder_self c)
        · obtain ⟨list, hlist, hmem⟩ := exists_child_of_mem_arguments hc
          exact hbelow list hlist c (mem_preorder_of_child hmem (mem_preorder_self c))
    · exact hbelow c hc a ha hb hagrees

end Node

namespace Tree

variable {t u : Tree} {a b id : NodeId}

/-- What stands at a name is a token if it is white space or a comment, and holds neither a bare name
nor an argument list if it is a pair of parentheses. If it is a token, it is a leaf or at least of the
kind of a token: one of these holds of every token of a tree, unless something was put in under a
token that was given the kind of a node. -/
structure RegularAt (t : Tree) (id : NodeId) : Prop where
  trivia : t.isTrivia id = true → t.isToken id = true
  operand : t.kind id = .parenExpr → ∀ inner ∈ (t.childNodes id).head?,
    t.kind inner ≠ .nameRef ∧ t.kind inner ≠ .argList
  leaf : t.isToken id = true → (t.kind id).isToken = true ∨ t.children id = []

instance (t : Tree) (id : NodeId) : Decidable (t.RegularAt id) :=
  decidable_of_iff ((t.isTrivia id = true → t.isToken id = true) ∧
    (t.kind id = .parenExpr → ∀ inner ∈ (t.childNodes id).head?,
      t.kind inner ≠ .nameRef ∧ t.kind inner ≠ .argList) ∧
    (t.isToken id = true → (t.kind id).isToken = true ∨ t.children id = []))
    ⟨fun h => ⟨h.1, h.2.1, h.2.2⟩, fun h => ⟨h.trivia, h.operand, h.leaf⟩⟩

/-- Where tokens are leaves, as in all trees that pass the integrity check. -/
theorem Bare.regularAt (h : t.Bare) (htrivia : t.isTrivia id = true → t.isToken id = true)
    (hoperand : t.kind id = .parenExpr → ∀ inner ∈ (t.childNodes id).head?,
      t.kind inner ≠ .nameRef ∧ t.kind inner ≠ .argList) : t.RegularAt id :=
  ⟨htrivia, hoperand, fun htoken => .inr (h id htoken)⟩

/-- Where tokens have the kinds of tokens, as in all that was parsed and then edited in any way. -/
theorem Kinded.regularAt (h : t.Kinded) (hoperand : t.kind id = .parenExpr →
    ∀ inner ∈ (t.childNodes id).head?, t.kind inner ≠ .nameRef ∧ t.kind inner ≠ .argList) :
    t.RegularAt id :=
  ⟨h.isToken_of_isTrivia, hoperand, fun htoken => .inl (h id ▸ htoken)⟩

theorem RegularAt.node {m : Node} (h : t.RegularAt m.id) (hm : Slots.Holds t.slots m) :
    m.Regular where
  trivia := fun htrivia => by
    rw [← isToken_of_holds hm]
    exact h.trivia ((isTrivia_of_holds hm).trans htrivia)
  operand := fun hkind inner hinner => by
    rw [← kind_of_holds (hm.of_mem (Node.mem_children_of_operand? hinner))]
    refine h.operand ((kind_of_holds hm).trans hkind) inner.id ?_
    rw [childNodes_of_holds hm, List.head?_map, Node.childNodes, List.head?_filter,
      ← Node.operand?_eq_find? hkind, hinner]
    rfl
  leaf := fun htoken => by
    have hleaf := h.leaf ((isToken_of_holds hm).trans htoken)
    rwa [kind_of_holds hm, children_of_holds hm, List.map_eq_nil_iff] at hleaf

end Tree

end PhpLint
