import PhpLint.Proofs.Equivalence.Variables
import PhpLint.Proofs.Equivalence.Wording
import PhpLint.Proofs.Token.Spelling

/-! Where the code of a subtree has all that the subtree says. A code drops what stands beside the
elements of an array and beside the operand of parentheses, it tells the words that include a file
from one another no more, and it lets names vary in case that are constants. Where none of this
occurs, the words of the subtree are those of its code. -/

namespace PhpLint

namespace Code

variable {w : String} {kind : Kind} {text : String}

theorem keywordText_eq (h : (text.toLower, kind) ∈ Kind.keywords)
    (hw : kind = .includeKw → text.toLower = w) : Word.keywordText text = spelling w kind := by
  have htable : ∀ p ∈ Kind.keywords, (if p.1 = "die" then "exit" else p.1) =
      if p.2 = .includeKw then p.1 else firstSpelling p.2 := by decide +kernel
  have heq := htable _ h
  unfold Word.keywordText spelling
  rw [heq]
  split
  next hkind => exact hw hkind
  next => rfl

theorem operatorText_eq (h : (text, kind) ∈ Token.operators) :
    Word.operatorText text = spelling w kind := by
  have htable : ∀ p ∈ Token.operators, p.2 ≠ .includeKw ∧
      (if p.1 = "<>" then "!=" else p.1) = firstSpelling p.2 := by decide +kernel
  obtain ⟨hne, heq⟩ := htable _ h
  rw [spelling, if_neg hne]
  exact heq

/-- A token that is spelled as its kind asks is worded by its kind. -/
theorem tokenWording_eq (h : Token.Spelled kind text) (hw : kind = .includeKw → text.toLower = w) :
    tokenWording w kind text = if kind.isTrivia then [] else [.ofToken kind text] := by
  unfold tokenWording Word.ofToken
  split
  · rfl
  cases hkeyword : kind.isKeyword with
  | true => simp [keywordText_eq (h.keyword hkeyword) hw]
  | false =>
    cases hoperator : kind.isOperatorOrPunctuation with
    | true => simp [operatorText_eq (w := w) (h.operator hoperator)]
    | false => simp

theorem wordingElements_eq_map (es : List (List Code)) :
    wordingElements w es = es.map (wordingAll w) := by
  induction es with
  | nil => rfl
  | cons e es ih => rw [wordingElements, ih, List.map_cons]

theorem foldsCase_of_folds {parent : Kind} {operator : Option Kind} {first : Bool}
    {prev : Option Kind} (h : Word.folds parent operator first prev = true) :
    foldsCase parent operator first = true := by
  unfold Word.folds at h
  split at h <;> first | rfl | exact h | cases h

theorem of_folds {n : Node} (h : n.kind ≠ .nameRef) (f g : Bool) : of f n = of g n := by
  obtain ⟨id, kind, token, children⟩ := n
  rw [of.eq_def, of.eq_def]
  dsimp only
  cases hshape : shapeOf kind token with
  | name =>
    unfold shapeOf at hshape
    split at hshape <;> cases hshape
    exact absurd rfl h
  | _ => rfl

theorem of_token {n : Node} (htoken : n.token = some text) (hleaf : n.children = []) (folds : Bool) :
    of folds n = .token n.kind text := by
  obtain ⟨id, kind, token, children⟩ := n
  cases htoken
  cases hleaf
  rw [of.eq_def]
  cases kind <;> rfl

theorem of_literal {n : Node} (hkind : n.kind = .literal) (htoken : n.token = none) (folds : Bool) :
    of folds n = .literal (n.solidChildren.head?.map fun t => (t.kind, t.token)) := by
  obtain ⟨id, kind, token, children⟩ := n
  cases hkind
  cases htoken
  rw [of]
  rfl

theorem of_node {n : Node} (htoken : n.token = none) (hkind : n.kind ≠ .parenExpr ∧
    n.kind ≠ .literal ∧ n.kind ≠ .nameRef ∧ n.kind ≠ .arrayExpr) (folds : Bool) :
    of folds n = .composite n.kind n.operatorKind?
      (ofAll n.kind n.operatorKind? true n.children) := by
  obtain ⟨id, kind, token, children⟩ := n
  cases htoken
  obtain ⟨hparen, hliteral, hname, harray⟩ := hkind
  rw [of.eq_def]
  cases kind <;> first | rfl | exact absurd rfl hparen | exact absurd rfl hliteral |
    exact absurd rfl hname | exact absurd rfl harray

end Code

theorem Word.layout_eq_flatMap {kind : Kind} (hparen : kind ≠ .parenExpr)
    (harray : kind ≠ .arrayExpr) (parts : Parts) : layout kind parts = parts.flatMap (·.2) := by
  unfold layout
  split <;> first | rfl | contradiction

namespace Node

/-- A token of the given kind. -/
def IsSign (n : Node) (kind : Kind) : Prop := n.kind = kind ∧ n.isToken = true

def IsElement (n : Node) : Prop := n.kind = .arrayElement ∧ n.isToken = false

/-- Elements with one comma between two, and perhaps one behind the last. -/
inductive Listed : List Node → Prop
  | nil : Listed []
  | last {e : Node} : e.IsElement → Listed [e]
  | cons {e comma : Node} {cs : List Node} : e.IsElement → comma.IsSign .comma → Listed cs →
    Listed (e :: comma :: cs)

/-- Such a list in brackets, or behind a word in parentheses. -/
inductive Enumerated : List Node → Prop
  | short {opening closing : Node} {cs : List Node} : opening.IsSign .lBrack → Listed cs →
    closing.IsSign .rBrack → Enumerated (opening :: (cs ++ [closing]))
  | long {word opening closing : Node} {cs : List Node} :
    word.kind = .arrayKw ∨ word.kind = .listKw → opening.IsSign .lParen → Listed cs →
    closing.IsSign .rParen → Enumerated (word :: opening :: (cs ++ [closing]))

/-- A name that the code lets vary in case names a function, a method or a class. -/
def FoldsRightly (parent : Kind) (operator : Option Kind) :
    Bool → Option Kind → List Node → Prop
  | _, _, [] => True
  | first, prev, c :: cs =>
    (c.kind = .nameRef → Code.foldsCase parent operator (first && !c.isToken) = true →
      Word.folds parent operator (first && !c.isToken) prev = true) ∧
    FoldsRightly parent operator (first && c.isToken) (if c.isTrivia then prev else some c.kind) cs

/-- Nothing of the node gets lost in its code: no name of it varies in case against the rules of
the language, its parentheses hold one node, its array is a plain list, and a file is included by
the word `w`. -/
structure Plain (w : String) (n : Node) : Prop where
  names : FoldsRightly n.kind n.operatorKind? true none n.children
  parens : n.kind = .parenExpr → n.isToken = false → ∃ inner, n.childNodes = [inner] ∧
    n.solidChildren.filter (fun c => c.kind != .lParen && c.kind != .rParen) = [inner]
  array : n.kind = .arrayExpr → n.isToken = false → Enumerated n.solidChildren
  includes : n.kind = .includeKw → ∀ text, n.token = some text → text.toLower = w

/-- What a node of a parsed tree is known to be. -/
structure Read (n : Node) : Prop where
  spelled : ∀ text, n.token = some text → Token.Spelled n.kind text
  leaf : n.isToken = true → n.children = []
  literal : n.kind = .literal → n.children = [] ∨ ∃ c, n.children = [c] ∧ c.isToken = true

variable {w : String} {n : Node} {parent : Kind} {operator : Option Kind} {first : Bool}
  {prev : Option Kind} {cs : List Node}

theorem wording_of_token {text : String} (htoken : n.token = some text) (folds : Bool) :
    n.wording folds = if n.kind.isTrivia then [] else [.ofToken n.kind text] := by
  obtain ⟨id, kind, token, children⟩ := n
  cases htoken
  rw [wording]

theorem wording_of_node (htoken : n.token = none) (hkind : n.kind ≠ .nameRef) (folds : Bool) :
    n.wording folds =
      Word.layout n.kind (wordingAll n.kind n.operatorKind? true none n.children) := by
  obtain ⟨id, kind, token, children⟩ := n
  cases htoken
  rw [wording]
  exact if_neg hkind

/-- Where no name folds, all children are worded alike. -/
theorem wordingAll_eq_map (h : ∀ first prev, Word.folds parent operator first prev = false) :
    wordingAll parent operator first prev cs =
      (cs.filter (!·.isTrivia)).map fun c => (c.kind, c.wording false) := by
  induction cs generalizing first prev with
  | nil => rfl
  | cons c cs ih =>
    rw [wordingAll, List.filter_cons]
    cases c.isTrivia with
    | true => exact ih
    | false =>
      rw [h]
      exact congrArg (List.cons _) ih

/-- The words of the children are those of their codes. -/
theorem flatMap_wordingAll
    (hcs : ∀ c ∈ cs, ∀ folds, c.wording folds = (Code.of folds c).wording w)
    (hnames : FoldsRightly parent operator first prev cs) :
    (wordingAll parent operator first prev cs).flatMap (·.2) =
      Code.wordingAll w (Code.ofAll parent operator first cs) := by
  induction cs generalizing first prev with
  | nil => rfl
  | cons c cs ih =>
    rw [List.forall_mem_cons] at hcs
    obtain ⟨hname, hnames⟩ := hnames
    rw [wordingAll, Code.ofAll]
    cases htrivia : c.isTrivia with
    | true =>
      rw [htrivia, if_pos rfl] at hnames
      exact ih hcs.2 hnames
    | false =>
      rw [htrivia, if_neg Bool.false_ne_true] at hnames
      have hcode : Code.of (Word.folds parent operator (first && !c.isToken) prev) c =
          Code.of (Code.foldsCase parent operator (first && !c.isToken)) c := by
        by_cases hkind : c.kind = .nameRef
        · rw [Bool.eq_iff_iff.2 ⟨Code.foldsCase_of_folds, hname hkind⟩]
        · exact Code.of_folds hkind ..
      rw [if_neg Bool.false_ne_true, if_neg Bool.false_ne_true, List.flatMap_cons, Code.wordingAll,
        ih hcs.2 hnames, ← hcode, ← hcs.1]

theorem wording_of_paren (hkind : n.kind = .parenExpr) (htoken : n.isToken = false) {inner : Node}
    (hone : n.childNodes = [inner])
    (hsolid : n.solidChildren.filter (fun c => c.kind != .lParen && c.kind != .rParen) = [inner])
    (folds : Bool) : n.wording folds = inner.wording false ∧ Code.of folds n = Code.of false inner := by
  have hnone : n.token = none := by simpa [isToken] using htoken
  constructor
  · rw [wording_of_node hnone (by rw [hkind]; decide), hkind, wordingAll_eq_map fun _ _ => rfl,
      Word.layout, List.filter_map]
    simp only [Function.comp_def]
    rw [← solidChildren, hsolid]
    simp
  · have hoperand : n.operand? = some inner := by
      rw [operand?, hkind, hone]
      rfl
    rw [Code.of_paren hkind, hoperand]

end Node

namespace Word

variable {part closing : Kind × List Word} {parts : Parts}

/-- What ends an array: its bracket, or the parenthesis that is written as one. -/
def Closes (closing : Kind × List Word) : Prop :=
  closing.1 = .rParen ∨ closing = (.rBrack, [closeBracket])

theorem closed_cons (hpart : part.1 ≠ .comma) (hparts : parts ≠ []) :
    closed (part :: parts) = part :: closed parts := by
  obtain ⟨kind, ws⟩ := part
  rw [closed]
  · exact fun _ _ _ hnil => hparts hnil
  · exact fun _ _ hcomma _ => hpart (congrArg Prod.fst hcomma)
  · exact fun _ _ hcomma _ => hpart (congrArg Prod.fst hcomma)

/-- What no word opens is left as it is, up to its closing bracket. -/
theorem bracketed_eq_closed (hpart : ¬ (part.1 = .arrayKw ∨ part.1 = .listKw)) :
    bracketed (part :: parts) = closed (part :: parts) := by
  cases parts with
  | nil => rfl
  | cons next parts => exact if_neg fun h => hpart h.1

theorem closed_comma (ws : List Word) (next other : Kind × List Word) (parts : Parts) :
    closed ((.comma, ws) :: next :: other :: parts) =
      (.comma, ws) :: closed (next :: other :: parts) := by
  rw [closed] <;> simp

theorem closed_last (h : Closes closing) : closed [closing] = [(.rBrack, [closeBracket])] := by
  obtain ⟨kind, ws⟩ := closing
  rcases h with h | h
  · cases h
    rfl
  · cases h
    rfl

theorem closed_trailing (h : Closes closing) (ws : List Word) :
    closed [(.comma, ws), closing] = [(.rBrack, [closeBracket])] := by
  obtain ⟨kind, vs⟩ := closing
  rcases h with h | h
  · cases h
    rfl
  · cases h
    rfl

end Word

namespace Node

/-- A child with its kind and its words. -/
def part (c : Node) : Kind × List Word := (c.kind, c.wording false)

variable {closing : Kind × List Word} {w : String} {n : Node} {cs : List Node}

theorem Listed.isToken_of_element (h : Listed cs) : ∀ e ∈ cs, e.kind = .arrayElement →
    e.isToken = false := by
  induction h with
  | nil => simp
  | last he => simpa using fun _ => he.2
  | cons he hcomma _ ih =>
    simp only [List.forall_mem_cons]
    exact ⟨fun _ => he.2, fun hkind => absurd (hcomma.1.symm.trans hkind) (by decide), ih⟩

theorem Enumerated.isToken_of_element (h : Enumerated cs) : ∀ e ∈ cs, e.kind = .arrayElement →
    e.isToken = false := by
  have hno : ∀ {c : Node} {kind : Kind}, c.kind = kind → kind ≠ .arrayElement →
      c.kind = .arrayElement → c.isToken = false := fun h hne hkind => absurd (h.symm.trans hkind) hne
  cases h with
  | short hopening hcs hclosing =>
    simp only [List.forall_mem_cons, List.forall_mem_append]
    exact ⟨hno hopening.1 (by decide), hcs.isToken_of_element, hno hclosing.1 (by decide), by simp⟩
  | long hword hopening hcs hclosing =>
    simp only [List.forall_mem_cons, List.forall_mem_append]
    exact ⟨hword.elim (hno · (by decide)) (hno · (by decide)), hno hopening.1 (by decide),
      hcs.isToken_of_element, hno hclosing.1 (by decide), by simp⟩

theorem Listed.eq_nil_or_element (h : Listed cs) :
    cs = [] ∨ ∃ e rest, cs = e :: rest ∧ e.IsElement := by
  cases h with
  | nil => exact .inl rfl
  | last he | cons he => exact .inr ⟨_, _, rfl, he⟩

/-- A token of a kind that has one spelling only. -/
theorem part_of_sign {kind : Kind} {text : String} (hn : n.Read) (h : n.IsSign kind)
    (hoperator : kind.isTrivia = false ∧ kind.isOperatorOrPunctuation = true)
    (hone : ∀ p ∈ Token.operators, p.2 = kind → p.1 = text) :
    n.part = (kind, [.ofToken kind text]) := by
  obtain ⟨rfl, htoken⟩ := h
  obtain ⟨spelling, hspelling⟩ := Option.isSome_iff_exists.1 htoken
  have htext := hone _ ((hn.spelled _ hspelling).operator hoperator.2) rfl
  rw [part, wording_of_token hspelling, hoperator.1, ← htext]
  rfl

theorem filter_element_of_ne (h : n.kind ≠ .arrayElement) (cs : List Node) :
    (n :: cs).filter (·.kind == .arrayElement) = cs.filter (·.kind == .arrayElement) :=
  List.filter_cons_of_neg (by simpa using h)

/-- The elements of a list in the words of an array. -/
theorem closed_listed (h : Listed cs) (hread : ∀ c ∈ cs, c.Read) (hclosing : Word.Closes closing) :
    (Word.closed (cs.map part ++ [closing])).flatMap (·.2) =
      [Word.separator].intercalate ((cs.filter (·.kind == .arrayElement)).map (wording false)) ++
        [Word.closeBracket] := by
  have helement : ∀ {e : Node}, e.IsElement → (part e).1 ≠ .comma ∧
      (e.kind == Kind.arrayElement) = true := fun he =>
    ⟨fun h => absurd (he.1.symm.trans h) (by decide), by simp [he.1]⟩
  induction h with
  | nil => simp [Word.closed_last hclosing]
  | @last e he =>
    obtain ⟨hpart, hkind⟩ := helement he
    rw [List.map_singleton, List.singleton_append, Word.closed_cons hpart (by simp),
      Word.closed_last hclosing, List.filter_singleton, hkind]
    simp [part]
  | @cons e comma cs he hsign hcs ih =>
    simp only [List.forall_mem_cons] at hread
    obtain ⟨hread, hreadComma, hreadRest⟩ := hread
    obtain ⟨hpart, hkind⟩ := helement he
    have hcomma : part comma = (.comma, [Word.separator]) :=
      part_of_sign hreadComma hsign ⟨rfl, rfl⟩ (by decide)
    have ih := ih hreadRest
    rw [List.map_cons, List.map_cons, List.cons_append, Word.closed_cons hpart (by simp), hcomma,
      List.filter_cons, hkind, if_pos rfl, filter_element_of_ne (by rw [hsign.1]; decide)]
    rcases hcs.eq_nil_or_element with rfl | ⟨next, rest, rfl, hnext⟩
    · simp [Word.closed_trailing hclosing, part]
    · have hlong : ∃ other parts, rest.map part ++ [closing] = other :: parts :=
        List.exists_cons_of_ne_nil (by simp)
      obtain ⟨other, parts, hlong⟩ := hlong
      rw [List.map_cons, List.cons_append, hlong] at ih
      rw [List.map_cons, List.cons_append, List.cons_append, hlong, Word.closed_comma,
        List.flatMap_cons, List.flatMap_cons, ih, List.filter_cons,
        (helement hnext).2, if_pos rfl, List.map_cons, List.map_cons, List.map_cons,
        List.intercalate_cons_cons]
      simp [part]

theorem childrenOfKind_eq_filter {kind : Kind} (h : kind.isTrivia = false) :
    n.childrenOfKind kind = n.solidChildren.filter (·.kind == kind) := by
  rw [childrenOfKind, solidChildren, List.filter_filter]
  refine List.filter_congr fun c _ => ?_
  cases hc : c.kind == kind with
  | false => rfl
  | true =>
    rw [isTrivia, beq_iff_eq.1 hc, h]
    rfl

theorem wording_of_array (hkind : n.kind = .arrayExpr) (htoken : n.isToken = false)
    (h : Enumerated n.solidChildren) (hread : ∀ c ∈ n.children, c.Read) (folds : Bool) :
    n.wording folds = Word.openBracket :: ([Word.separator].intercalate
      ((n.childrenOfKind .arrayElement).map (wording false)) ++ [Word.closeBracket]) := by
  have hnone : n.token = none := by simpa [isToken] using htoken
  have hsolid : ∀ c ∈ n.solidChildren, c.Read := fun c hc => hread c (List.mem_filter.1 hc).1
  rw [wording_of_node hnone (by rw [hkind]; decide), hkind, wordingAll_eq_map fun _ _ => rfl,
    Word.layout, ← solidChildren, childrenOfKind_eq_filter rfl]
  change ((Word.bracketed (n.solidChildren.map part)).flatMap (·.2)) = _
  generalize n.solidChildren = cs at h hsolid
  cases h with
  | @short opening closing cs hopening hcs hclosing =>
    simp only [List.forall_mem_cons, List.forall_mem_append] at hsolid
    obtain ⟨hreadOpening, hreadAll, hreadClosing, -⟩ := hsolid
    have hopens : part opening = (.lBrack, [Word.openBracket]) :=
      part_of_sign hreadOpening hopening ⟨rfl, rfl⟩ (by decide)
    have hcloses : part closing = (.rBrack, [Word.closeBracket]) :=
      part_of_sign hreadClosing hclosing ⟨rfl, rfl⟩ (by decide)
    rw [List.map_cons, hopens, Word.bracketed_eq_closed (by decide),
      Word.closed_cons (by decide) (by simp), List.flatMap_cons,
      List.map_append, List.map_singleton, hcloses, closed_listed hcs hreadAll (.inr rfl),
      filter_element_of_ne (by rw [hopening.1]; decide), List.filter_append,
      filter_element_of_ne (by rw [hclosing.1]; decide), List.filter_nil, List.append_nil]
    rfl
  | @long word opening closing cs hword hopening hcs hclosing =>
    simp only [List.forall_mem_cons, List.forall_mem_append] at hsolid
    obtain ⟨-, -, hreadAll, -⟩ := hsolid
    have hlong : Word.bracketed ((word :: opening :: (cs ++ [closing])).map part) =
        (.lBrack, [Word.openBracket]) :: Word.closed ((cs ++ [closing]).map part) :=
      if_pos ⟨hword, hopening.1⟩
    have hne : word.kind ≠ .arrayElement := by
      rcases hword with hword | hword <;> rw [hword] <;> decide
    rw [hlong, List.flatMap_cons, List.map_append, List.map_singleton,
      closed_listed hcs hreadAll (.inl hclosing.1), filter_element_of_ne hne,
      filter_element_of_ne (by rw [hopening.1]; decide), List.filter_append,
      filter_element_of_ne (by rw [hclosing.1]; decide), List.filter_nil, List.append_nil]
    rfl

theorem wording_of_literal (hkind : n.kind = .literal) (htoken : n.token = none) (hn : n.Read)
    (hread : ∀ c ∈ n.children, c.Read)
    (hcs : ∀ c ∈ n.children, ∀ folds, c.wording folds = (Code.of folds c).wording w) (folds : Bool) :
    n.wording folds = (Code.of folds n).wording w := by
  rw [wording_of_node htoken (by rw [hkind]; decide), hkind, wordingAll_eq_map fun _ _ => rfl,
    Word.layout_eq_flatMap (by decide) (by decide), ← solidChildren,
    Code.of_literal hkind htoken]
  rcases hn.literal hkind with hnil | ⟨c, hone, hc⟩
  · rw [solidChildren, hnil]
    rfl
  obtain ⟨text, htext⟩ := Option.isSome_iff_exists.1 hc
  have hmem : c ∈ n.children := hone ▸ List.mem_cons_self
  have hwords := hcs c hmem false
  rw [Code.of_token htext ((hread c hmem).leaf hc)] at hwords
  rw [solidChildren, hone, List.filter_singleton]
  cases c.isTrivia with
  | true => rfl
  | false =>
    simp only [Bool.not_false, cond_true, List.map_singleton, List.flatMap_singleton,
      List.head?_cons, Option.map_some, htext]
    exact hwords

theorem ofElements_eq (cs : List Node) : Code.ofElements cs =
    (cs.filter (·.kind == .arrayElement)).map fun e =>
      Code.ofAll .arrayElement none true e.children := by
  induction cs with
  | nil => rfl
  | cons c cs ih =>
    obtain ⟨id, kind, token, children⟩ := c
    rw [Code.ofElements, ih, List.filter_cons]
    by_cases hkind : kind = .arrayElement
    · rw [if_pos hkind, if_pos (by simpa using hkind)]
      rfl
    · rw [if_neg hkind, if_neg (by simpa using hkind)]

/-- Where nothing gets lost in the codes, the words of a subtree are those of its code. -/
theorem wording_eq (hplain : ∀ m ∈ n.preorder, m.Plain w) (hread : ∀ m ∈ n.preorder, m.Read)
    (folds : Bool) : n.wording folds = (Code.of folds n).wording w := by
  induction n using Node.induction generalizing folds with
  | mk id kind token children ih =>
    have hself := mem_preorder_self ⟨id, kind, token, children⟩
    have hchildren : ∀ c ∈ children, ∀ folds, c.wording folds = (Code.of folds c).wording w :=
      fun c hc folds => ih c hc (fun m hm => hplain m (mem_preorder_of_child hc hm))
        (fun m hm => hread m (mem_preorder_of_child hc hm)) folds
    have hp := hplain _ hself
    have hr := hread _ hself
    have hreadAll : ∀ c ∈ children, c.Read := fun c hc =>
      hread c (mem_preorder_of_child hc (mem_preorder_self c))
    cases token with
    | some text =>
      rw [wording_of_token rfl, Code.of_token rfl (hr.leaf rfl), Code.wording,
        Code.tokenWording_eq (hr.spelled text rfl) fun hkind => hp.includes hkind text rfl]
    | none =>
      by_cases hparen : kind = .parenExpr
      · subst hparen
        obtain ⟨inner, hone, hsolid⟩ := hp.parens rfl rfl
        obtain ⟨hwords, hcode⟩ := wording_of_paren rfl rfl hone hsolid folds
        have hinner : inner ∈ children := by
          have hmem : inner ∈ childNodes ⟨id, .parenExpr, none, children⟩ := hone ▸ List.mem_cons_self
          exact (List.mem_filter.1 hmem).1
        rw [hwords, hcode, hchildren inner hinner]
      by_cases hliteral : kind = .literal
      · subst hliteral
        exact wording_of_literal rfl rfl hr hreadAll hchildren folds
      by_cases hname : kind = .nameRef
      · subst hname
        rw [wording, Code.of]
        simp [Code.shapeOf, Code.wording, text]
      by_cases harray : kind = .arrayExpr
      · subst harray
        have hlist := hp.array rfl rfl
        rw [wording_of_array rfl rfl hlist hreadAll, Code.of]
        change _ = Word.openBracket :: ([Word.separator].intercalate
          (Code.wordingElements w (Code.ofElements children)) ++ [Word.closeBracket])
        rw [ofElements_eq, Code.wordingElements_eq_map, List.map_map]
        congr 3
        refine List.map_congr_left fun e he => ?_
        obtain ⟨he, hkind⟩ := List.mem_filter.1 he
        have hkind : e.kind = .arrayElement := beq_iff_eq.1 hkind
        have helement : e.isToken = false := hlist.isToken_of_element e
          (List.mem_filter.2 ⟨he, by rw [isTrivia, hkind]; rfl⟩) hkind
        have hnone : e.token = none := by simpa [isToken] using helement
        have hoperator : e.operatorKind? = none := by rw [operatorKind?, operator?, hkind]; rfl
        rw [hchildren e he, Code.of_node hnone (by rw [hkind]; decide), hkind, hoperator]
        rfl
      · rw [wording_of_node rfl hname, Code.of_node rfl ⟨hparen, hliteral, hname, harray⟩,
          Word.layout_eq_flatMap hparen harray, flatMap_wordingAll hchildren hp.names]
        rfl

end Node

end PhpLint
