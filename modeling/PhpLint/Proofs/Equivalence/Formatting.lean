import PhpLint.Proofs.Equivalence.Laws

/-! Formatting and equivalence. White space, comments and parentheses may be put in at any place but
a few, any number of times: what is equivalent stays so, and nothing else becomes equivalent. The
codes before and after need not be the same, as the code of a literal tells the kind of what it
begins with even where that cannot be compared; they agree with the same codes. -/

namespace PhpLint

namespace Code

/-- Two codes that agree with the same codes. -/
def Alike (x y : Code) : Prop := ∀ z, x.agree z = y.agree z

variable {x y z : Code} {xs ys zs : List Code}

theorem Alike.refl (x : Code) : Alike x x := fun _ => rfl

theorem Alike.trans (h : Alike x y) (h' : Alike y z) : Alike x z := fun w => (h w).trans (h' w)

theorem agreeAll_congr (h : List.Forall₂ Alike xs ys) : agreeAll xs zs = agreeAll ys zs := by
  induction h generalizing zs with
  | nil => rfl
  | cons hxy _ ih =>
    cases zs with
    | nil => rfl
    | cons z zs => rw [agreeAll, agreeAll, hxy z, ih]

theorem agreeElements_congr {xs ys zs : List (List Code)}
    (h : List.Forall₂ (List.Forall₂ Alike) xs ys) : agreeElements xs zs = agreeElements ys zs := by
  induction h generalizing zs with
  | nil => rfl
  | cons hxy _ ih =>
    cases zs with
    | nil => rfl
    | cons z zs => rw [agreeElements, agreeElements, agreeAll_congr hxy, ih]

theorem Alike.composite (kind : Kind) (operator : Option Kind) (h : List.Forall₂ Alike xs ys) :
    Alike (.composite kind operator xs) (.composite kind operator ys) := fun z => by
  cases z <;> try rfl
  rw [agree, agree, agreeAll_congr h]

theorem Alike.array {xs ys : List (List Code)} (h : List.Forall₂ (List.Forall₂ Alike) xs ys) :
    Alike (.array xs) (.array ys) := fun z => by
  cases z <;> try rfl
  rw [agree, agree, agreeElements_congr h]

/-- The word of a token. -/
def word? (n : Node) : Option (Kind × String) := n.token.map (n.kind, ·)

/-- Of what a literal begins with only the word counts. -/
theorem Alike.literal {a b : Option Node} (h : a.map word? = b.map word?) :
    Alike (.literal (a.map fun n => (n.kind, n.token)))
      (.literal (b.map fun n => (n.kind, n.token))) := fun z => by
  cases z <;> try rfl
  rcases a with _ | ⟨i, k, x, cs⟩ <;> rcases b with _ | ⟨j, l, y, ds⟩ <;> try cases h
  · rfl
  · cases x <;> cases y <;> cases h <;> rfl

end Code

namespace Node

/-! The codes of the nodes below a node, each in its place. -/

mutual

/-- The nodes of a subtree, each with whether a name in its place may vary in case. -/
def places (folds : Bool) : Node → List (Bool × Node)
  | ⟨id, kind, token, children⟩ =>
    let n : Node := ⟨id, kind, token, children⟩
    (folds, n) :: placesAll kind n.operatorKind? true children

def placesAll (parent : Kind) (operator : Option Kind) (first : Bool) :
    List Node → List (Bool × Node)
  | [] => []
  | c :: cs => places (Code.foldsCase parent operator (first && !c.isToken)) c
    ++ placesAll parent operator (first && c.isToken) cs

end

theorem places_eq (folds : Bool) (n : Node) :
    n.places folds = (folds, n) :: placesAll n.kind n.operatorKind? true n.children := by
  obtain ⟨id, kind, token, children⟩ := n
  rw [places]

variable {parent : Kind} {operator : Option Kind} {first : Bool} {xs ys : List Node}

theorem placesAll_singleton (c : Node) : placesAll parent operator first [c] =
    c.places (Code.foldsCase parent operator (first && !c.isToken)) := by
  rw [placesAll, placesAll, List.append_nil]

theorem placesAll_append : placesAll parent operator first (xs ++ ys) =
    placesAll parent operator first xs
      ++ placesAll parent operator (first && xs.all isToken) ys := by
  induction xs generalizing first with
  | nil => simp [placesAll]
  | cons x xs ih =>
    rw [List.cons_append, placesAll, placesAll, ih, List.append_assoc, List.all_cons,
      Bool.and_assoc]

/-- Two places of one name whose codes agree with the same codes. -/
def Counterpart (p q : Bool × Node) : Prop :=
  p.2.id = q.2.id ∧ Code.Alike (Code.of p.1 p.2) (Code.of q.1 q.2)

theorem Counterpart.refl (p : Bool × Node) : Counterpart p p := ⟨rfl, .refl _⟩

theorem Counterpart.trans {p q r : Bool × Node} (h : Counterpart p q) (h' : Counterpart q r) :
    Counterpart p r := ⟨h.1.trans h'.1, h.2.trans h'.2⟩

/-- Parts of a list of children that can stand for each other. -/
structure Exchangeable (xs ys : List Node) : Prop where
  tokens : xs.all isToken = ys.all isToken
  operator : ((xs.filter (!·.isTrivia)).find? isToken).map Node.kind =
    ((ys.filter (!·.isTrivia)).find? isToken).map Node.kind
  word : (xs.filter (!·.isTrivia)).head?.map Code.word? =
    (ys.filter (!·.isTrivia)).head?.map Code.word?
  operand : ∀ z, (Code.ofOperand xs).map (·.agree z) = (Code.ofOperand ys).map (·.agree z)
  elements : List.Forall₂ (List.Forall₂ Code.Alike) (Code.ofElements xs) (Code.ofElements ys)
  codes : ∀ parent operator first, List.Forall₂ Code.Alike
    (Code.ofAll parent operator first xs) (Code.ofAll parent operator first ys)
  places : ∀ parent operator first, ∀ p ∈ placesAll parent operator first xs,
    ∃ q ∈ placesAll parent operator first ys, Counterpart p q

end Node

namespace Code

variable {parent : Kind} {operator : Option Kind} {first : Bool} {xs ys : List Node}

theorem ofAll_append : ofAll parent operator first (xs ++ ys) =
    ofAll parent operator first xs
      ++ ofAll parent operator (first && xs.all Node.isToken) ys := by
  induction xs generalizing first with
  | nil => simp [ofAll]
  | cons x xs ih =>
    rw [List.cons_append, ofAll, ofAll, ih, List.all_cons, ← Bool.and_assoc]
    split <;> rfl

theorem ofAll_singleton (c : Node) : ofAll parent operator first [c] =
    if c.isTrivia then [] else [of (foldsCase parent operator (first && !c.isToken)) c] := by
  rw [ofAll, ofAll]

theorem ofElements_singleton (c : Node) : ofElements [c] =
    if c.kind = .arrayElement then [ofAll .arrayElement none true c.children] else [] := by
  obtain ⟨id, kind, token, children⟩ := c
  rw [ofElements, ofElements]

theorem ofElements_append : ofElements (xs ++ ys) = ofElements xs ++ ofElements ys := by
  rw [Node.ofElements_eq, Node.ofElements_eq, Node.ofElements_eq, List.filter_append,
    List.map_append]

theorem ofOperand_append : ofOperand (xs ++ ys) = (ofOperand xs).or (ofOperand ys) := by
  rw [ofOperand_eq, ofOperand_eq, ofOperand_eq, List.find?_append, Option.map_or]

end Code

namespace Node

variable {parent : Kind} {operator : Option Kind} {first : Bool} {n n' c c' : Node}
  {xs xs' ys ys' : List Node}

namespace Exchangeable

theorem refl (xs : List Node) : Exchangeable xs xs where
  tokens := rfl
  operator := rfl
  word := rfl
  operand := fun _ => rfl
  elements := List.forall₂_same.2 fun _ _ => List.forall₂_same.2 fun _ _ => .refl _
  codes := fun _ _ _ => List.forall₂_same.2 fun _ _ => .refl _
  places := fun _ _ _ p hp => ⟨p, hp, .refl p⟩

theorem append (h : Exchangeable xs ys) (h' : Exchangeable xs' ys') :
    Exchangeable (xs ++ xs') (ys ++ ys') where
  tokens := by rw [List.all_append, List.all_append, h.tokens, h'.tokens]
  operator := by
    rw [List.filter_append, List.filter_append, List.find?_append, List.find?_append, Option.map_or,
      Option.map_or, h.operator, h'.operator]
  word := by
    rw [List.filter_append, List.filter_append, List.head?_append, List.head?_append, Option.map_or,
      Option.map_or, h.word, h'.word]
  operand := fun z => by
    rw [Code.ofOperand_append, Code.ofOperand_append, Option.map_or, Option.map_or, h.operand,
      h'.operand]
  elements := by
    rw [Code.ofElements_append, Code.ofElements_append]
    exact List.rel_append h.elements h'.elements
  codes := fun parent operator first => by
    rw [Code.ofAll_append, Code.ofAll_append, h.tokens]
    exact List.rel_append (h.codes ..) (h'.codes ..)
  places := fun parent operator first p hp => by
    rw [placesAll_append, List.mem_append] at hp
    rw [placesAll_append, ← h.tokens]
    rcases hp with hp | hp
    · obtain ⟨q, hq, hpq⟩ := h.places _ _ _ p hp
      exact ⟨q, List.mem_append_left _ hq, hpq⟩
    · obtain ⟨q, hq, hpq⟩ := h'.places _ _ _ p hp
      exact ⟨q, List.mem_append_right _ hq, hpq⟩

theorem operatorKind? {id : NodeId} {kind : Kind} {token : Option String} (h : Exchangeable xs ys) :
    (⟨id, kind, token, xs⟩ : Node).operatorKind? = (⟨id, kind, token, ys⟩ : Node).operatorKind? := by
  have hfind := h.operator
  rw [Node.operatorKind?, Node.operatorKind?, operator?, operator?]
  cases kind <;> first | rfl | exact hfind

theorem among (h : Exchangeable [c] [c']) (before after : List Node) :
    Exchangeable (before ++ c :: after) (before ++ c' :: after) :=
  (refl before).append (h.append (refl after))

/-- A node whose children are exchanged. -/
theorem alike {id : NodeId} {kind : Kind} (h : Exchangeable xs ys) (hkind : kind ≠ .nameRef)
    (folds : Bool) :
    Code.Alike (Code.of folds ⟨id, kind, none, xs⟩) (Code.of folds ⟨id, kind, none, ys⟩) := by
  have hcomposite : Code.Alike
      (.composite kind (⟨id, kind, none, xs⟩ : Node).operatorKind?
        (Code.ofAll kind (⟨id, kind, none, xs⟩ : Node).operatorKind? true xs))
      (.composite kind (⟨id, kind, none, ys⟩ : Node).operatorKind?
        (Code.ofAll kind (⟨id, kind, none, ys⟩ : Node).operatorKind? true ys)) := by
    rw [h.operatorKind?]
    exact .composite _ _ (h.codes ..)
  rw [Code.of.eq_def, Code.of.eq_def]
  dsimp only
  cases hshape : Code.shapeOf kind none with
  | group =>
    intro z
    have hoperand := h.operand z
    dsimp only
    cases hx : Code.ofOperand xs <;> cases hy : Code.ofOperand ys <;> rw [hx, hy] at hoperand
    · exact hcomposite z
    · cases hoperand
    · cases hoperand
    · exact Option.some.inj hoperand
  | token text => exact .refl _
  | literal => exact .literal h.word
  | name =>
    unfold Code.shapeOf at hshape
    split at hshape <;> cases hshape
    exact absurd rfl hkind
  | array => exact .array h.elements
  | composite => exact hcomposite

/-- Nodes with children whose codes agree with the same codes. -/
theorem single (hc : c.isToken = false) (hc' : c'.isToken = false)
    (htrivia : c.isTrivia = c'.isTrivia)
    (helements : List.Forall₂ (List.Forall₂ Code.Alike) (Code.ofElements [c])
      (Code.ofElements [c']))
    (hcodes : ∀ folds, Code.Alike (Code.of folds c) (Code.of folds c'))
    (hplaces : ∀ folds, ∀ p ∈ c.places folds, ∃ q ∈ c'.places folds, Counterpart p q) :
    Exchangeable [c] [c'] where
  tokens := by simp [hc, hc']
  operator := by cases h : c'.isTrivia <;> simp [htrivia, h, hc, hc']
  word := by
    rw [isToken, Option.isSome_eq_false_iff, Option.isNone_iff_eq_none] at hc hc'
    cases h : c'.isTrivia <;> simp [htrivia, h, Code.word?, hc, hc']
  operand := fun z => by
    simp [Code.ofOperand_eq, hc, hc', hcodes false z]
  elements := helements
  codes := fun parent operator first => by
    rw [Code.ofAll_singleton, Code.ofAll_singleton, htrivia, hc, hc']
    split
    · exact .nil
    · exact .cons (hcodes _) .nil
  places := fun parent operator first p hp => by
    rw [placesAll_singleton, hc] at hp
    rw [placesAll_singleton, hc']
    exact hplaces _ p hp

/-- Nodes of one kind and name that are built alike. -/
theorem node {id : NodeId} {kind : Kind} (h : Exchangeable xs ys) (hkind : kind ≠ .nameRef) :
    Exchangeable [⟨id, kind, none, xs⟩] [⟨id, kind, none, ys⟩] := by
  refine single rfl rfl rfl ?_ (h.alike hkind) fun folds p hp => ?_
  · rw [Code.ofElements_singleton, Code.ofElements_singleton]
    dsimp only
    split
    · exact .cons (h.codes ..) .nil
    · exact .nil
  · rw [places_eq, List.mem_cons] at hp
    rw [places_eq]
    rcases hp with rfl | hp
    · exact ⟨_, List.mem_cons_self, rfl, h.alike hkind folds⟩
    · obtain ⟨q, hq, hpq⟩ := h.places _ _ _ p hp
      rw [h.operatorKind?] at hq
      exact ⟨q, List.mem_cons_of_mem _ hq, hpq⟩

end Exchangeable

/-- White space or a comment. -/
structure IsBlank (n : Node) : Prop where
  token : n.isToken = true
  trivia : n.isTrivia = true
  leaf : n.children = []

theorem IsBlank.kind_ne (h : n.IsBlank) {kind : Kind} (hkind : kind.isTrivia = false) :
    n.kind ≠ kind := fun heq => by
  have htrivia := h.trivia
  rw [isTrivia, heq, hkind] at htrivia
  cases htrivia

theorem IsBlank.exchangeable (h : n.IsBlank) : Exchangeable [] [n] where
  tokens := by simp [h.token]
  operator := by simp [h.trivia]
  word := by simp [h.trivia]
  operand := fun z => by simp [Code.ofOperand_eq, h.token]
  elements := by
    rw [Code.ofElements_singleton, if_neg (h.kind_ne rfl), Code.ofElements]
    exact .nil
  codes := fun parent operator first => by
    rw [Code.ofAll_singleton, h.trivia, if_pos rfl, Code.ofAll]
    exact .nil
  places := fun _ _ _ p hp => by
    rw [placesAll] at hp
    cases hp

/-- A pair of parentheses around a node. -/
def parenthesized (id opening closing : NodeId) (left right : String) (c : Node) : Node :=
  ⟨id, .parenExpr, none, [⟨opening, .lParen, some left, []⟩, c, ⟨closing, .rParen, some right, []⟩]⟩

theorem exchangeable_parenthesized {id opening closing : NodeId} {left right : String}
    (htoken : c.isToken = false) (htrivia : c.isTrivia = false) (hname : c.kind ≠ .nameRef)
    (helement : c.kind ≠ .arrayElement) :
    Exchangeable [c] [parenthesized id opening closing left right c] := by
  have hcode : ∀ folds, Code.of folds (parenthesized id opening closing left right c) =
      Code.of folds c := fun folds => by
    have hoperand : (parenthesized id opening closing left right c).operand? = some c := by
      rw [operand?_eq_find? rfl, parenthesized, List.find?_cons_of_neg (by simp [isToken]),
        List.find?_cons_of_pos (by simp [htoken])]
    rw [Code.of_paren rfl, hoperand, Code.of_folds hname]
  refine .single htoken rfl htrivia ?_ (fun folds => hcode folds ▸ .refl _) fun folds p hp => ?_
  · rw [Code.ofElements_singleton, Code.ofElements_singleton, if_neg helement,
      if_neg (fun h => by cases h)]
    exact .nil
  · have hplaces : ∀ q ∈ c.places false,
        q ∈ (parenthesized id opening closing left right c).places folds := fun q hq => by
      rw [places_eq]
      refine List.mem_cons_of_mem _ ?_
      rw [parenthesized, placesAll, placesAll]
      exact List.mem_append_right _ (List.mem_append_left _ hq)
    rw [places_eq, List.mem_cons] at hp
    rcases hp with rfl | hp
    · exact ⟨(false, c), hplaces _ (by rw [places_eq]; exact List.mem_cons_self), rfl,
        Code.of_folds hname folds false ▸ .refl _⟩
    · exact ⟨p, hplaces p (by rw [places_eq]; exact List.mem_cons_of_mem _ hp), .refl p⟩

/-! Rewriting. -/

theorem forall_mem_preorder {p : Node → Prop} :
    (∀ m ∈ n.preorder, p m) ↔ p n ∧ ∀ c ∈ n.children, ∀ m ∈ c.preorder, p m := by
  rw [preorder_eq, List.forall_mem_cons]
  exact and_congr_right' List.forall_mem_flatMap

/-- What formatting relies on: white space and comments are tokens, and names consist of tokens. -/
structure Tidy (n : Node) : Prop where
  trivia : n.isTrivia = true → n.isToken = true
  name : n.kind = .nameRef → ∀ c ∈ n.children, c.isToken = true

/-- One change of the formatting, at any depth. -/
inductive Rewrite : Node → Node → Prop
  | insert {id : NodeId} {kind : Kind} {before after : List Node} {blank : Node} :
    kind ≠ .nameRef → blank.IsBlank →
    Rewrite ⟨id, kind, none, before ++ after⟩ ⟨id, kind, none, before ++ blank :: after⟩
  | wrap {id outer opening closing : NodeId} {kind : Kind} {before after : List Node} {c : Node}
    {left right : String} : c.isToken = false → c.kind ≠ .nameRef → c.kind ≠ .arrayElement →
    Rewrite ⟨id, kind, none, before ++ c :: after⟩
      ⟨id, kind, none, before ++ parenthesized outer opening closing left right c :: after⟩
  | child {id : NodeId} {kind : Kind} {before after : List Node} {c c' : Node} : Rewrite c c' →
    Rewrite ⟨id, kind, none, before ++ c :: after⟩ ⟨id, kind, none, before ++ c' :: after⟩

/-- Any number of changes. -/
def Rewrites : Node → Node → Prop := Relation.ReflTransGen Rewrite

namespace Rewrite

theorem isToken_eq_false (h : Rewrite n n') : n.isToken = false := by cases h <;> rfl

theorem head_eq (h : Rewrite n n') : n'.id = n.id ∧ n'.kind = n.kind ∧ n'.token = n.token := by
  cases h <;> exact ⟨rfl, rfl, rfl⟩

/-- Nothing is changed right below a name. -/
theorem kind_ne (h : Rewrite n n') (htidy : n.Tidy) : n.kind ≠ .nameRef := fun hkind => by
  have hcomposite : ∀ c ∈ n.children, c.isToken ≠ false := fun c hc htoken => by
    rw [htidy.name hkind c hc] at htoken
    cases htoken
  cases h with
  | insert hname _ => exact hname hkind
  | wrap htoken _ _ => exact hcomposite _ (List.mem_append_right _ List.mem_cons_self) htoken
  | child hc =>
    exact hcomposite _ (List.mem_append_right _ List.mem_cons_self) hc.isToken_eq_false

/-- What is changed can stand for what was there. -/
theorem exchangeable (h : Rewrite n n') (htidy : ∀ m ∈ n.preorder, m.Tidy) :
    Exchangeable [n] [n'] := by
  have hname := h.kind_ne (htidy n (mem_preorder_self n))
  induction h with
  | @insert _ _ before after _ _ hblank =>
    exact .node ((Exchangeable.refl before).append (hblank.exchangeable.append (.refl after))) hname
  | @wrap _ _ _ _ _ before after c _ _ htoken hname' helement =>
    have hmem : c ∈ before ++ c :: after := List.mem_append_right _ List.mem_cons_self
    have htrivia : c.isTrivia = false := Bool.eq_false_iff.2 fun htrivia => by
      have := (htidy c (mem_preorder_of_child hmem (mem_preorder_self c))).trivia htrivia
      rw [htoken] at this
      cases this
    exact .node ((exchangeable_parenthesized htoken htrivia hname' helement).among before after)
      hname
  | @child _ _ before after c c' hc ih =>
    have hmem : c ∈ before ++ c :: after := List.mem_append_right _ List.mem_cons_self
    have hbelow : ∀ m ∈ c.preorder, m.Tidy := fun m hm => htidy m (mem_preorder_of_child hmem hm)
    exact .node ((ih hbelow (hc.kind_ne (hbelow c (mem_preorder_self c)))).among before after) hname

theorem tidy_head (h : Rewrite n n') (htidy : n.Tidy) : n'.Tidy := by
  obtain ⟨-, hkind, htoken⟩ := h.head_eq
  refine ⟨fun htrivia => ?_, fun hname => absurd (hkind.symm.trans hname) (h.kind_ne htidy)⟩
  rw [isTrivia, hkind] at htrivia
  rw [isToken, htoken]
  exact htidy.trivia htrivia

theorem tidy_of_leaf (htoken : n.isToken = true) (hleaf : n.children = []) :
    ∀ m ∈ n.preorder, m.Tidy := by
  refine forall_mem_preorder.2 ⟨⟨fun _ => htoken, fun _ => ?_⟩, ?_⟩ <;> rw [hleaf] <;>
    exact List.forall_mem_nil _

theorem tidy (h : Rewrite n n') (htidy : ∀ m ∈ n.preorder, m.Tidy) : ∀ m ∈ n'.preorder, m.Tidy := by
  have hhead := h.tidy_head (htidy n (mem_preorder_self n))
  have hold := (forall_mem_preorder.1 htidy).2
  clear htidy
  refine forall_mem_preorder.2 ⟨hhead, ?_⟩
  induction h with
  | insert _ hblank =>
    rw [List.forall_mem_append] at hold
    exact List.forall_mem_append.2
      ⟨hold.1, List.forall_mem_cons.2 ⟨tidy_of_leaf hblank.token hblank.leaf, hold.2⟩⟩
  | @wrap _ outer opening closing _ _ _ c left right =>
    rw [List.forall_mem_append, List.forall_mem_cons] at hold
    have hparens : ∀ m ∈ (parenthesized outer opening closing left right c).preorder, m.Tidy := by
      refine forall_mem_preorder.2 ⟨⟨nofun, nofun⟩, List.forall_mem_cons.2 ?_⟩
      refine ⟨tidy_of_leaf rfl rfl, List.forall_mem_cons.2 ⟨hold.2.1, ?_⟩⟩
      exact List.forall_mem_singleton.2 (tidy_of_leaf rfl rfl)
    exact List.forall_mem_append.2 ⟨hold.1, List.forall_mem_cons.2 ⟨hparens, hold.2.2⟩⟩
  | child hc ih =>
    rw [List.forall_mem_append, List.forall_mem_cons] at hold
    obtain ⟨hcold, hbelow⟩ := forall_mem_preorder.1 hold.2.1
    have hchead := hc.tidy_head hcold
    exact List.forall_mem_append.2 ⟨hold.1, List.forall_mem_cons.2
      ⟨forall_mem_preorder.2 ⟨hchead, ih hchead hbelow⟩, hold.2.2⟩⟩

end Rewrite

theorem Rewrites.tidy (h : Rewrites n n') (htidy : ∀ m ∈ n.preorder, m.Tidy) :
    ∀ m ∈ n'.preorder, m.Tidy := by
  induction h with
  | refl => exact htidy
  | tail _ hstep ih => exact hstep.tidy ih

/-- Every place is still there after any number of changes, with a code that agrees with the same
codes. -/
theorem Rewrites.exists_counterpart (h : Rewrites n n') (htidy : ∀ m ∈ n.preorder, m.Tidy) :
    ∀ p ∈ n.places false, ∃ q ∈ n'.places false, Counterpart p q := by
  induction h with
  | refl => exact fun p hp => ⟨p, hp, .refl p⟩
  | tail hrun hstep ih =>
    intro p hp
    obtain ⟨q, hq, hpq⟩ := ih p hp
    have hplaces := (hstep.exchangeable (Rewrites.tidy hrun htidy)).places .block none true
    rw [placesAll_singleton, placesAll_singleton] at hplaces
    obtain ⟨r, hr, hqr⟩ := hplaces q hq
    exact ⟨r, hr, hpq.trans hqr⟩

/-! The names of nodes play no part. -/

mutual

/-- The same subtree under other names. -/
def rename (ρ : NodeId → NodeId) : Node → Node
  | ⟨id, kind, token, children⟩ => ⟨ρ id, kind, token, renameAll ρ children⟩

def renameAll (ρ : NodeId → NodeId) : List Node → List Node
  | [] => []
  | n :: ns => n.rename ρ :: renameAll ρ ns

end

variable {ρ : NodeId → NodeId}

theorem renameAll_eq_map (ns : List Node) : renameAll ρ ns = ns.map (rename ρ) := by
  induction ns with
  | nil => rfl
  | cons n ns ih => rw [renameAll, ih, List.map_cons]

@[simp] theorem id_rename (n : Node) : (n.rename ρ).id = ρ n.id := by
  cases n
  rw [rename]

@[simp] theorem kind_rename (n : Node) : (n.rename ρ).kind = n.kind := by
  cases n
  rw [rename]

@[simp] theorem token_rename (n : Node) : (n.rename ρ).token = n.token := by
  cases n
  rw [rename]

@[simp] theorem isToken_rename (n : Node) : (n.rename ρ).isToken = n.isToken := by
  rw [isToken, token_rename, isToken]

@[simp] theorem isTrivia_rename (n : Node) : (n.rename ρ).isTrivia = n.isTrivia := by
  rw [isTrivia, kind_rename, isTrivia]

@[simp] theorem children_rename (n : Node) : (n.rename ρ).children = n.children.map (rename ρ) := by
  cases n
  rw [rename, renameAll_eq_map]

theorem solidChildren_rename (n : Node) :
    (n.rename ρ).solidChildren = n.solidChildren.map (rename ρ) := by
  simp [solidChildren, List.filter_map, Function.comp_def]

@[simp] theorem operatorKind?_rename (n : Node) :
    (n.rename ρ).operatorKind? = n.operatorKind? := by
  rw [operatorKind?, operatorKind?, operator?, operator?, kind_rename, solidChildren_rename,
    List.find?_map]
  split <;> simp [Function.comp_def]

mutual

theorem text_rename : (n : Node) → (n.rename ρ).text = n.text
  | ⟨id, kind, token, children⟩ => by rw [rename, text, text, textAll_renameAll children]

theorem textAll_renameAll : (ns : List Node) → textAll (renameAll ρ ns) = textAll ns
  | [] => by rw [renameAll]
  | n :: ns => by rw [renameAll, textAll, textAll, text_rename n, textAll_renameAll ns]

end

mutual

theorem code_rename : (n : Node) → (folds : Bool) → Code.of folds (n.rename ρ) = Code.of folds n
  | ⟨id, kind, token, children⟩, folds => by
    have hoperator := operatorKind?_rename (ρ := ρ) ⟨id, kind, token, children⟩
    have hsolid := solidChildren_rename (ρ := ρ) ⟨id, kind, token, children⟩
    have htext := text_rename (ρ := ρ) ⟨id, kind, token, children⟩
    rw [rename] at hoperator hsolid htext ⊢
    rw [Code.of.eq_def, Code.of.eq_def]
    simp only [hoperator, hsolid, htext, codes_rename children, operandCode_rename children,
      elementCodes_rename children, List.head?_map, Option.map_map, Function.comp_def, kind_rename,
      token_rename]

theorem codes_rename : (ns : List Node) → (parent : Kind) → (operator : Option Kind) →
    (first : Bool) → Code.ofAll parent operator first (renameAll ρ ns) =
      Code.ofAll parent operator first ns
  | [], _, _, _ => by rw [renameAll]
  | n :: ns, parent, operator, first => by
    rw [renameAll, Code.ofAll, Code.ofAll, code_rename n, codes_rename ns, isToken_rename,
      isTrivia_rename]

theorem operandCode_rename : (ns : List Node) →
    Code.ofOperand (renameAll ρ ns) = Code.ofOperand ns
  | [] => by rw [renameAll]
  | n :: ns => by
    rw [renameAll, Code.ofOperand, Code.ofOperand, code_rename n, operandCode_rename ns,
      isToken_rename]

theorem elementCodes_rename : (ns : List Node) →
    Code.ofElements (renameAll ρ ns) = Code.ofElements ns
  | [] => by rw [renameAll]
  | ⟨id, kind, token, children⟩ :: ns => by
    rw [renameAll, rename, Code.ofElements, Code.ofElements, codes_rename children,
      elementCodes_rename ns]

end

mutual

theorem places_rename : (n : Node) → (folds : Bool) →
    (n.rename ρ).places folds = (n.places folds).map fun p => (p.1, p.2.rename ρ)
  | ⟨id, kind, token, children⟩, folds => by
    have hoperator := operatorKind?_rename (ρ := ρ) ⟨id, kind, token, children⟩
    rw [rename] at hoperator
    rw [rename, places, places, List.map_cons, placesAll_renameAll children, hoperator, rename]

theorem placesAll_renameAll : (ns : List Node) → (parent : Kind) → (operator : Option Kind) →
    (first : Bool) → placesAll parent operator first (renameAll ρ ns) =
      (placesAll parent operator first ns).map fun p => (p.1, p.2.rename ρ)
  | [], _, _, _ => by rw [renameAll, placesAll, List.map_nil]
  | n :: ns, parent, operator, first => by
    rw [renameAll, placesAll, placesAll, places_rename n, placesAll_renameAll ns, isToken_rename,
      List.map_append]

end

end Node

namespace Node

variable {n c : Node} {before after : List Node}

mutual

theorem map_snd_places : (n : Node) → (folds : Bool) → (n.places folds).map Prod.snd = n.preorder
  | ⟨id, kind, token, children⟩, folds => by
    rw [places, preorder, List.map_cons, map_snd_placesAll children]

theorem map_snd_placesAll : (ns : List Node) → (parent : Kind) → (operator : Option Kind) →
    (first : Bool) → (placesAll parent operator first ns).map Prod.snd = preorderAll ns
  | [], _, _, _ => by rw [placesAll, preorderAll, List.map_nil]
  | n :: ns, parent, operator, first => by
    rw [placesAll, preorderAll, List.map_append, map_snd_places n, map_snd_placesAll ns]

end

/-- Which of several children of different names is the first node. -/
theorem head?_childNodes_beq (h : ((before ++ c :: after).map Node.id).Nodup) :
    ((((before ++ c :: after).filter (!·.isToken)).map Node.id).head? == some c.id) =
      (before.all isToken && !c.isToken) := by
  rw [List.map_append, List.map_cons, List.nodup_append, List.nodup_cons] at h
  obtain ⟨-, ⟨hafter, -⟩, hbefore⟩ := h
  rw [List.head?_map, List.head?_filter, List.find?_append]
  cases hfind : before.find? (!·.isToken) with
  | some d =>
    have hd := List.mem_of_find?_eq_some hfind
    have hne : d.id ≠ c.id := hbefore _ (List.mem_map_of_mem hd) _ List.mem_cons_self
    have hall : before.all isToken = false := by
      rw [List.all_eq_false]
      exact ⟨d, hd, by simpa using List.find?_some hfind⟩
    simp [hne, hall]
  | none =>
    have hall : before.all isToken = true := by
      rw [List.all_eq_true]
      simpa using hfind
    rw [hall, Option.none_or, List.find?_cons]
    cases hc : c.isToken with
    | false => simp
    | true =>
      cases hd : after.find? (!·.isToken) with
      | none => simp
      | some d =>
        have hne : d.id ≠ c.id := fun heq =>
          hafter (heq ▸ List.mem_map_of_mem (List.mem_of_find?_eq_some hd))
        simp [hne]

end Node

namespace Tree

variable {t t' u u' : Tree} {a a' b b' top c p q : NodeId}

/-! Places in a tree. -/

/-- Of a child what came before it in the list tells the same as its place in the tree. -/
theorem Linked.foldsCase_eq (h : t.Linked) {n c : Node} {before after : List Node}
    (hn : Slots.Holds t.slots n) (heq : n.children = before ++ c :: after) :
    t.foldsCase c.id =
      Code.foldsCase n.kind n.operatorKind? (before.all Node.isToken && !c.isToken) := by
  have hunder : t.parent? c.id = some n.id := h.under_of_mem hn (by simp [heq])
  have hnodup := h.nodup n.id
  rw [children_of_holds hn, heq] at hnodup
  rw [foldsCase, hunder]
  dsimp only
  rw [h.node_eq hn, kind_of_holds hn, childNodes_of_holds hn, Node.childNodes, heq,
    Node.head?_childNodes_beq hnodup]

/-- Below a node the subtree there tells whether a name in a place may vary in case. -/
theorem Linked.foldsCase_of_mem_places (h : t.Linked) {n : Node} (hn : Slots.Holds t.slots n) :
    ∀ p ∈ n.places (t.foldsCase n.id), p.1 = t.foldsCase p.2.id := by
  induction n using Node.induction with
  | mk id kind token children ih =>
    have hall : ∀ before cs, children = before ++ cs →
        ∀ p ∈ Node.placesAll kind (⟨id, kind, token, children⟩ : Node).operatorKind?
          (before.all Node.isToken) cs, p.1 = t.foldsCase p.2.id := fun before cs => by
      induction cs generalizing before with
      | nil =>
        intro _ p hp
        rw [Node.placesAll] at hp
        cases hp
      | cons c cs ihcs =>
        intro heq p hp
        rw [Node.placesAll, List.mem_append, ← h.foldsCase_eq hn heq] at hp
        have hmem : c ∈ children := heq ▸ List.mem_append_right _ List.mem_cons_self
        rcases hp with hp | hp
        · exact ih c hmem (hn.of_mem hmem) p hp
        · refine ihcs (before ++ [c]) (by rw [heq, List.append_assoc]; rfl) p ?_
          simpa using hp
    intro p hp
    rw [Node.places_eq, List.mem_cons] at hp
    rcases hp with rfl | hp
    · rfl
    · exact hall [] children rfl p hp

/-- The code of a node in its place is told by the subtree at any node above. -/
theorem Linked.code_eq_of_mem_places (h : t.Linked) (htop : t.parent? top = none) {p : Bool × Node}
    (hp : p ∈ (t.node top).places false) : t.code p.2.id = Code.of p.1 p.2 := by
  have hfolds : t.foldsCase (t.node top).id = false := by rw [id_node, foldsCase, htop]
  have hmem : p.2 ∈ (t.node top).preorder := by
    rw [← Node.map_snd_places _ false]
    exact List.mem_map_of_mem hp
  rw [code, h.node_of_mem_preorder hmem]
  by_cases hsize : top < t.size
  · rw [← hfolds] at hp
    rw [h.foldsCase_of_mem_places (h.holds_node hsize) p hp]
  · rw [node_of_size_le (Nat.le_of_not_lt hsize), Node.places_eq, Node.placesAll,
      List.mem_singleton] at hp
    rw [hp, foldsCase, htop]

theorem Linked.node_mem_preorder (h : t.Linked) (ha : t.Within a top) :
    t.node a ∈ (t.node top).preorder := by
  by_cases hsize : top < t.size
  · have hids := (h.mem_ids (h.holds_node hsize)).2 (by rwa [id_node])
    obtain ⟨m, hm, rfl⟩ := List.mem_map.1 hids
    rwa [h.node_of_mem_preorder hm]
  · rcases Relation.ReflTransGen.cases_tail ha with rfl | ⟨c, -, hc⟩
    · exact Node.mem_preorder_self _
    · exact absurd (h.parent_lt_size hc) hsize

/-- `p` is `c` itself, or parentheses around it, any number of them. -/
inductive Encloses (t : Tree) : NodeId → NodeId → Prop
  | self (c : NodeId) : Encloses t c c
  | paren {p q c : NodeId} : t.kind p = .parenExpr → (t.childNodes p).head? = some q →
    Encloses t q c → Encloses t p c

/-- The code of parentheses is that of what stands in them. -/
theorem Encloses.code_eq (h : t.Encloses p c) (ht : t.Linked) : t.code p = t.code c := by
  induction h with
  | self => rfl
  | @paren p q c hkind hfirst _ ih =>
    have hmem : q ∈ t.children p := List.mem_of_mem_filter (List.mem_of_head? hfirst)
    have hunder : t.parent? q = some p := ht.mem_children.1 hmem
    have hp := ht.holds_node (ht.parent_lt_size hunder)
    have hnode : (t.node p).kind = .parenExpr := (kind_node t p).trans hkind
    have hchildren := childNodes_of_holds hp
    rw [id_node] at hchildren
    rw [hchildren, List.head?_map] at hfirst
    obtain ⟨inner, hinner, rfl⟩ := Option.map_eq_some_iff.1 hfirst
    have hoperand : (t.node p).operand? = some inner := by
      rw [Node.operand?, hnode, ← List.head?_eq_getElem?, hinner]
    have hfolds : t.foldsCase inner.id = false := by
      rw [foldsCase, hunder]
      dsimp only
      rw [hkind]
      rfl
    have hinner' := ht.node_eq (hp.of_mem (List.mem_of_mem_filter (List.mem_of_head? hinner)))
    rw [← ih, code, code, Code.of_paren hnode, hoperand, hfolds, hinner']

/-- Subtrees that differ in formatting, and a node in each: the one in the second tree is the one in
the first, under another name, or parentheses around it. -/
structure Formatted (t : Tree) (a : NodeId) (t' : Tree) (a' : NodeId) : Prop where
  linked : t.Linked
  linked' : t'.Linked
  exists_rewrites : ∃ (top top' : NodeId) (n : Node) (ρ : NodeId → NodeId),
    t.parent? top = none ∧ t.Within a top ∧ (∀ m ∈ (t.node top).preorder, m.Tidy) ∧
      (t.node top).Rewrites n ∧ t'.node top' = n.rename ρ ∧ t'.parent? top' = none ∧
      t'.Encloses a' (ρ a)

theorem Formatted.alike (h : Formatted t a t' a') : Code.Alike (t.code a) (t'.code a') := by
  obtain ⟨top, top', n, ρ, htop, ha, htidy, hrewrites, hnode, htop', ha'⟩ := h.exists_rewrites
  have hmem := h.linked.node_mem_preorder ha
  rw [← Node.map_snd_places _ false] at hmem
  obtain ⟨p, hp, hpa⟩ := List.mem_map.1 hmem
  obtain ⟨q, hq, hid, hpq⟩ := hrewrites.exists_counterpart htidy p hp
  have hq' : (q.1, q.2.rename ρ) ∈ (t'.node top').places false := by
    rw [hnode, Node.places_rename]
    exact List.mem_map_of_mem hq
  have hcode := h.linked.code_eq_of_mem_places htop hp
  have hcode' := h.linked'.code_eq_of_mem_places htop' hq'
  rw [hpa, id_node] at hcode hid
  rw [Node.id_rename, ← hid, Node.code_rename] at hcode'
  rw [ha'.code_eq h.linked', hcode, hcode', ← hpa]
  exact hpq

/-- White space, comments and parentheses put in on either side leave the answer as it was. -/
theorem equivalentAcross_of_formatted (h : Formatted t a t' a') (h' : Formatted u b u' b') :
    t'.equivalentAcross a' u' b' = t.equivalentAcross a u b := by
  calc (t'.code a').agree (u'.code b') = (t.code a).agree (u'.code b') := (h.alike _).symm
    _ = (u'.code b').agree (t.code a) := Code.agree_comm ..
    _ = (u.code b).agree (t.code a) := (h'.alike _).symm
    _ = (t.code a).agree (u.code b) := Code.agree_comm ..

/-- `-$x` -/
def minus : Tree := ofEvents [.start .unaryExpr, .token .minus "-", .start .variableExpr,
  .token .varName "$x", .finish, .finish]

/-- `- /* x */($x)` -/
def spacedMinus : Tree := ofEvents [.start .unaryExpr, .token .minus "-", .token .whitespace " ",
  .token .comment "/* x */", .start .parenExpr, .token .lParen "(", .start .variableExpr,
  .token .varName "$x", .finish, .token .rParen ")", .finish, .finish]

/-- The names of `spacedMinus` for those of `minus` and of what is put in. -/
def spacedName (id : NodeId) : NodeId := [0, 4, 5, 8, 1, 2, 3, 6, 7].getD id 0

theorem tidy_minus : ∀ m ∈ (minus.node 3).preorder, m.Tidy := by
  have hpreorder : (minus.node 3).preorder = [⟨3, .unaryExpr, none, [⟨0, .minus, some "-", []⟩,
      ⟨2, .variableExpr, none, [⟨1, .varName, some "$x", []⟩]⟩]⟩, ⟨0, .minus, some "-", []⟩,
      ⟨2, .variableExpr, none, [⟨1, .varName, some "$x", []⟩]⟩, ⟨1, .varName, some "$x", []⟩] := rfl
  intro m hm
  rw [hpreorder] at hm
  simp only [List.mem_cons, List.not_mem_nil, or_false] at hm
  rcases hm with rfl | rfl | rfl | rfl <;> exact ⟨nofun, nofun⟩

theorem formatted_minus (ha : minus.Within a 3) (ha' : spacedMinus.Encloses a' (spacedName a)) :
    Formatted minus a spacedMinus a' where
  linked := (sound_ofEvents _).linked
  linked' := (sound_ofEvents _).linked
  exists_rewrites := by
    let sign : Node := ⟨0, .minus, some "-", []⟩
    let space : Node := ⟨4, .whitespace, some " ", []⟩
    let comment : Node := ⟨5, .comment, some "/* x */", []⟩
    let x : Node := ⟨2, .variableExpr, none, [⟨1, .varName, some "$x", []⟩]⟩
    let parens : Node := Node.parenthesized 8 6 7 "(" ")" x
    have hspace : Node.Rewrite ⟨3, .unaryExpr, none, [sign, x]⟩
        ⟨3, .unaryExpr, none, [sign, space, x]⟩ :=
      @Node.Rewrite.insert 3 .unaryExpr [sign] [x] space nofun ⟨rfl, rfl, rfl⟩
    have hcomment : Node.Rewrite ⟨3, .unaryExpr, none, [sign, space, x]⟩
        ⟨3, .unaryExpr, none, [sign, space, comment, x]⟩ :=
      @Node.Rewrite.insert 3 .unaryExpr [sign, space] [x] comment nofun ⟨rfl, rfl, rfl⟩
    have hparens : Node.Rewrite ⟨3, .unaryExpr, none, [sign, space, comment, x]⟩
        ⟨3, .unaryExpr, none, [sign, space, comment, parens]⟩ :=
      @Node.Rewrite.wrap 3 8 6 7 .unaryExpr [sign, space, comment] [] x "(" ")" rfl nofun nofun
    exact ⟨3, 8, _, spacedName, rfl, ha, tidy_minus, ((Relation.ReflTransGen.single hspace).tail
      hcomment).tail hparens, rfl, rfl, ha'⟩

theorem equivalentAcross_of_spaced_minus :
    spacedMinus.equivalentAcross 7 spacedMinus 5 = true ∧
      spacedMinus.equivalentAcross 7 minus 3 = false := by
  have hunder : minus.Within 2 3 := .of_under rfl
  have hparens : Formatted minus 2 spacedMinus 7 := formatted_minus hunder (.paren rfl rfl (.self _))
  have hbare : Formatted minus 2 spacedMinus 5 := formatted_minus hunder (.self _)
  have hsame : Formatted minus 3 minus 3 := ⟨(sound_ofEvents _).linked, (sound_ofEvents _).linked,
    3, 3, minus.node 3, id, rfl, .refl .., tidy_minus, .refl, rfl, rfl, .self _⟩
  exact ⟨(equivalentAcross_of_formatted hparens hbare).trans (by decide +kernel),
    (equivalentAcross_of_formatted hparens hsame).trans (by decide +kernel)⟩

end Tree

end PhpLint
