import PhpLint.Concrete.Treatment
import PhpLint.Proofs.Token.Spelling

/-! Which kinds of tokens and nodes a piece can turn into. -/

namespace PhpLint

/-- A text that is one token is no error. -/
theorem Token.ne_errorToken_of_classify {text : String} {kind : Kind}
    (h : classify text = .ok (some kind)) : kind ≠ .errorToken := by
  unfold classify at h
  cases hscan : ofCode text with
  | error fault =>
    rw [hscan] at h
    cases h
  | ok tokens =>
    rw [hscan] at h
    rcases tokens with _ | ⟨only, _ | ⟨next, tokens⟩⟩
    · cases h
    · simp only [Except.map, Except.ok.injEq] at h
      split at h
      · cases h
      · cases h
        assumption
    · cases h

/-- Nodes that hold one token: literals, names, types and shell commands. -/
def Kind.isSolitary : Kind → Bool
  | literal | declaredName | nameRef | typeRef | shellExpr => true
  | _ => false

namespace Treatment

/-- Token kinds that are given without a look at the text. -/
def plainKinds : List Kind := [
  .comment, .openTag, .inlineHtml, .varName, .intNumber, .floatNumber, .string, .heredoc, .ident,
  .shellCommand]

def spelling (text : List Char) (c : Concrete) : String := .ofList (Text.slice text c.start c.stop)

theorem scanned_eq (text : List Char) (c : Concrete) :
    scanned text c.head = Token.classify (spelling text c) := rfl

/-- Why a piece that is one token has the kind it has. -/
inductive Suits (text : List Char) (c : Concrete) : Kind → Prop
  | plain {kind : Kind} : kind ∈ plainKinds → Suits text c kind
  | scanned {kind : Kind} : Token.classify (spelling text c) = .ok (some kind) → Suits text c kind
  | unknown : c.children = [] → Token.classify (spelling text c) = .ok none →
    Suits text c .errorToken
  | boolean : c.kind = "boolean" →
    Suits text c (if (spelling text c).toLower == "true" then .trueKw else .falseKw)
  | null : c.kind = "null" → Suits text c .nullKw

/-- An error token is a piece of its own whose text is not one token. -/
theorem Suits.unknown_of_errorToken {text : List Char} {c : Concrete}
    (h : Suits text c .errorToken) :
    c.children = [] ∧ Token.classify (spelling text c) = .ok none := by
  generalize hkind : Kind.errorToken = kind at h
  cases h with
  | plain hplain =>
    rw [← hkind] at hplain
    exact absurd hplain (by decide)
  | scanned hscanned => exact absurd hkind.symm (Token.ne_errorToken_of_classify hscanned)
  | unknown hchildren hclassify => exact ⟨hchildren, hclassify⟩
  | boolean =>
    split at hkind <;> cases hkind
  | null => cases hkind

/-- Tokens have a kind that suits them; no error node is made of a piece that is none, and no
literal of a piece's children. -/
def Fair (text : List Char) (c : Concrete) : Treatment → Prop
  | .leaf kind => Suits text c kind
  | .wrapped node kind => node ≠ .errorNode ∧ Suits text c kind
  | .composite kind => kind ≠ .errorNode ∧ kind ≠ .literal
  | .keywordCall node keyword callee => (node ≠ .errorNode ∧ node ≠ .literal) ∧
    ∃ x word, c.children[callee]? = some x ∧ (spelling text x).toLower = word ∧
      (word, keyword) ∈ [("isset", Kind.issetKw), ("empty", .emptyKw)]
  | .transparent | .elseIf _ | .targets => True

variable {text : List Char} {c : Concrete}

theorem fair_of_nodeKind?_eq_some {name : String} {kind : Kind} (h : nodeKind? name = some kind) :
    (composite kind).Fair text c := by
  unfold nodeKind? at h
  split at h <;> cases h <;> exact ⟨by decide, by decide⟩

theorem ofName_fair (place : Place) (head : Head) : (ofName place head).Fair text c := by
  have hnode : ∀ b : Bool, (if b = true then Kind.declaredName else .nameRef) ≠ .errorNode := by
    decide
  have hident : Suits text c .ident := .plain (by decide)
  unfold ofName
  dsimp only
  split
  · exact hident
  · exact ⟨hnode _, hident⟩

theorem ofCall_fair (c : Concrete) : (ofCall text c).Fair text c := by
  unfold ofCall
  split
  · exact ⟨by decide, by decide⟩
  next callee _ =>
    have hword : ∀ word : String,
        (String.ofList ((c.children[callee]?.map fun n => Text.slice text n.start n.stop).getD
          [])).toLower = word → word ≠ "" →
        ∃ x, c.children[callee]? = some x ∧ (spelling text x).toLower = word := by
      intro word h hne
      cases hx : c.children[callee]? with
      | none =>
        rw [hx] at h
        have hempty : (String.ofList []).toLower = "" := by decide +kernel
        exact absurd (h.symm.trans hempty) hne
      | some x =>
        rw [hx] at h
        exact ⟨x, rfl, h⟩
    dsimp only
    split
    next h =>
      obtain ⟨x, hx, hword⟩ := hword _ h (by decide)
      exact ⟨⟨by decide, by decide⟩, x, _, hx, hword, by simp⟩
    next h =>
      obtain ⟨x, hx, hword⟩ := hword _ h (by decide)
      exact ⟨⟨by decide, by decide⟩, x, _, hx, hword, by simp⟩
    next => exact ⟨by decide, by decide⟩

theorem ofElse_fair (c : Concrete) : (ofElse c).Fair text c := by
  unfold ofElse
  dsimp only
  split
  · split
    · trivial
    · exact ⟨by decide, by decide⟩
  · exact ⟨by decide, by decide⟩

theorem ofLeaf_fair {t : Treatment} (hleaf : c.children.isEmpty = true)
    (h : ofLeaf text c.head = .ok t) : t.Fair text c := by
  unfold ofLeaf at h
  dsimp only at h
  rw [scanned_eq] at h
  cases hs : Token.classify (spelling text c) with
  | error fault =>
    rw [hs] at h
    cases h
  | ok found =>
    rw [hs] at h
    cases h
    cases found with
    | some kind => exact .scanned hs
    | none =>
      dsimp only [Fair, Option.getD]
      split
      · exact .plain (by decide)
      · exact .unknown (List.isEmpty_iff.1 hleaf) hs

theorem map_scanned_fair {t : Treatment}
    (h : (scanned text c.head).map (fun kind => wrapped .nameRef (kind.getD .ident)) = .ok t) :
    t.Fair text c := by
  rw [scanned_eq] at h
  cases hs : Token.classify (spelling text c) with
  | error fault =>
    rw [hs] at h
    cases h
  | ok found =>
    rw [hs] at h
    cases h
    cases found with
    | some kind => exact ⟨by decide, .scanned hs⟩
    | none => exact ⟨by decide, .plain (by decide)⟩

theorem of_fair {place : Place} {t : Treatment} (h : of text place c = .ok t) : t.Fair text c := by
  have hcomposite : ∀ b : Bool, (composite (if b then .unaryExpr else .postfixExpr)).Fair text c := by
    intro b
    cases b <;> exact ⟨by decide, by decide⟩
  unfold of at h
  split at h
  all_goals try
    replace h := Except.ok.inj h
    subst h
    first
    | exact Suits.plain (by decide)
    | exact ⟨by decide, Suits.plain (by decide)⟩
    | exact ofName_fair ..
    | exact ofElse_fair ..
    | exact ofCall_fair ..
    | exact hcomposite _
  next hkind => exact Except.ok.inj h ▸ ⟨by decide, .boolean hkind⟩
  next hkind => exact Except.ok.inj h ▸ ⟨by decide, .null hkind⟩
  next => exact map_scanned_fair h
  next =>
    rw [← Except.ok.inj h]
    split
    · exact ⟨by decide, by decide⟩
    · trivial
  next => exact Except.ok.inj h ▸ trivial
  next =>
    split at h
    · exact Except.ok.inj h ▸ ⟨by decide, .plain (by decide)⟩
    split at h
    · exact Except.ok.inj h ▸ trivial
    split at h
    · exact Except.ok.inj h ▸ trivial
    split at h
    next mapped hmapped => exact Except.ok.inj h ▸ fair_of_nodeKind?_eq_some hmapped
    next =>
      split at h
      next hleaf => exact ofLeaf_fair hleaf h
      next => exact Except.ok.inj h ▸ trivial

/-- Tokens are given token kinds, nodes are given node kinds, and the nodes that hold one token are
made of single pieces. No literal is made of white space or of a comment. -/
def Kinded : Treatment → Prop
  | .leaf kind => kind.isToken = true
  | .wrapped node kind =>
    node.isToken = false ∧ kind.isToken = true ∧ (node = .literal → kind.isTrivia = false)
  | .composite kind => kind.isToken = false ∧ kind.isSolitary = false
  | .keywordCall node keyword _ =>
    (node.isToken = false ∧ node.isSolitary = false) ∧ keyword.isToken = true
  | .transparent | .elseIf _ | .targets => True

theorem kinded_of_nodeKind? {name : String} {kind : Kind} (h : nodeKind? name = some kind) :
    (composite kind).Kinded := by
  unfold nodeKind? at h
  split at h <;> cases h <;> exact ⟨rfl, rfl⟩

theorem ofName_kinded (place : Place) (head : Head) : (ofName place head).Kinded := by
  have hwrapped : ∀ b : Bool,
      (wrapped (if b = true then .declaredName else .nameRef) .ident).Kinded := by
    intro b
    cases b <;> exact ⟨rfl, rfl, nofun⟩
  unfold ofName
  dsimp only
  split
  · rfl
  · exact hwrapped _

theorem ofCall_kinded (c : Concrete) : (ofCall text c).Kinded := by
  unfold ofCall
  split
  · exact ⟨rfl, rfl⟩
  · dsimp only
    split
    · exact ⟨⟨rfl, rfl⟩, rfl⟩
    · exact ⟨⟨rfl, rfl⟩, rfl⟩
    · exact ⟨rfl, rfl⟩

theorem ofElse_kinded (c : Concrete) : (ofElse c).Kinded := by
  unfold ofElse
  dsimp only
  split
  · split
    · trivial
    · exact ⟨rfl, rfl⟩
  · exact ⟨rfl, rfl⟩

/-- Whatever kind a text is classified as, it is a token's. -/
theorem kinded_of_map_scanned {f : Option Kind → Treatment} {t : Treatment}
    (h : (scanned text c.head).map f = .ok t)
    (hf : ∀ kind : Kind, kind.isToken = true → (f (some kind)).Kinded) (hnone : (f none).Kinded) :
    t.Kinded := by
  rw [scanned_eq] at h
  cases hscanned : Token.classify (spelling text c) with
  | error fault =>
    rw [hscanned] at h
    cases h
  | ok found =>
    rw [hscanned] at h
    cases h
    cases found with
    | some kind => exact hf kind (Token.isToken_of_classify hscanned)
    | none => exact hnone

theorem ofLeaf_kinded {t : Treatment} (h : ofLeaf text c.head = .ok t) : t.Kinded := by
  unfold ofLeaf at h
  refine kinded_of_map_scanned h (fun kind hkind => hkind) ?_
  dsimp only [Option.getD]
  split <;> rfl

theorem of_kinded {place : Place} {t : Treatment} (h : of text place c = .ok t) : t.Kinded := by
  have hcomposite : ∀ b : Bool, (composite (if b then .unaryExpr else .postfixExpr)).Kinded := by
    intro b
    cases b <;> exact ⟨rfl, rfl⟩
  have hleaf : ∀ {kind : Kind}, kind.isToken = true → (leaf kind).Kinded := id
  unfold of at h
  split at h
  all_goals try
    replace h := Except.ok.inj h
    subst h
    first
    | exact ⟨rfl, rfl, fun _ => rfl⟩
    | exact ⟨rfl, rfl, nofun⟩
    | exact ofName_kinded ..
    | exact ofElse_kinded ..
    | exact ofCall_kinded ..
    | exact hcomposite _
    | exact hleaf rfl
  next =>
    rw [← Except.ok.inj h]
    split <;> exact ⟨rfl, rfl, fun _ => rfl⟩
  next => exact kinded_of_map_scanned h (fun kind hkind => ⟨rfl, hkind, nofun⟩) ⟨rfl, rfl, nofun⟩
  next =>
    rw [← Except.ok.inj h]
    split
    · exact ⟨rfl, rfl⟩
    · trivial
  next => exact Except.ok.inj h ▸ trivial
  next =>
    split at h
    · exact Except.ok.inj h ▸ ⟨rfl, rfl, nofun⟩
    split at h
    · exact Except.ok.inj h ▸ trivial
    split at h
    · exact Except.ok.inj h ▸ trivial
    split at h
    next mapped hmapped => exact Except.ok.inj h ▸ kinded_of_nodeKind? hmapped
    next =>
      split at h
      · exact ofLeaf_kinded h
      · exact Except.ok.inj h ▸ trivial

theorem exists_of_map_scanned {head : Head} {f : Option Kind → Treatment} {t : Treatment}
    (h : (scanned text head).map f = .ok t) : ∃ found, t = f found := by
  cases hscanned : scanned text head with
  | error fault =>
    rw [hscanned] at h
    cases h
  | ok found =>
    rw [hscanned] at h
    cases h
    exact ⟨found, rfl⟩

theorem exists_of_ofLeaf {head : Head} {t : Treatment} (h : ofLeaf text head = .ok t) :
    ∃ kind, t = .leaf kind := by
  unfold ofLeaf at h
  obtain ⟨found, rfl⟩ := exists_of_map_scanned h
  exact ⟨_, rfl⟩

/-- No alternative of an `if` is made. -/
def Branchless : Treatment → Prop
  | .wrapped node _ | .composite node | .keywordCall node _ _ =>
    node ≠ .elseIfClause ∧ node ≠ .elseClause
  | .elseIf _ => False
  | .leaf _ | .transparent | .targets => True

theorem branchless_of_nodeKind? {name : String} {kind : Kind} (h : nodeKind? name = some kind)
    (hif : name ≠ "else_if_clause") (helse : name ≠ "else_clause") :
    (composite kind).Branchless := by
  unfold nodeKind? at h
  split at h <;> cases h
  all_goals first
    | exact ⟨by decide, by decide⟩
    | contradiction

theorem ofName_branchless (place : Place) (head : Head) : (ofName place head).Branchless := by
  have hnode : ∀ b : Bool,
      (wrapped (if b = true then .declaredName else .nameRef) .ident).Branchless := by
    intro b
    cases b <;> exact ⟨by decide, by decide⟩
  unfold ofName
  dsimp only
  split
  · trivial
  · exact hnode _

theorem ofCall_branchless (c : Concrete) : (ofCall text c).Branchless := by
  unfold ofCall
  split
  · exact ⟨by decide, by decide⟩
  · dsimp only
    split <;> exact ⟨by decide, by decide⟩

/-- Only alternatives of the concrete tree become alternatives. -/
theorem of_branchless {place : Place} {t : Treatment} (h : of text place c = .ok t)
    (hif : c.kind ≠ "else_if_clause") (helse : c.kind ≠ "else_clause") : t.Branchless := by
  have hcomposite : ∀ b : Bool,
      (composite (if b then .unaryExpr else .postfixExpr)).Branchless := by
    intro b
    cases b <;> exact ⟨by decide, by decide⟩
  unfold of at h
  split at h
  all_goals try
    replace h := Except.ok.inj h
    subst h
    first
    | trivial
    | exact ofName_branchless ..
    | exact ofCall_branchless ..
    | exact hcomposite _
    | contradiction
  next =>
    obtain ⟨found, rfl⟩ := exists_of_map_scanned h
    exact ⟨by decide, by decide⟩
  next =>
    rw [← Except.ok.inj h]
    split
    · exact ⟨by decide, by decide⟩
    · trivial
  next =>
    split at h
    · exact Except.ok.inj h ▸ ⟨by decide, by decide⟩
    split at h
    · exact Except.ok.inj h ▸ trivial
    split at h
    · exact Except.ok.inj h ▸ trivial
    split at h
    next mapped hmapped => exact Except.ok.inj h ▸ branchless_of_nodeKind? hmapped hif helse
    next =>
      split at h
      · obtain ⟨kind, rfl⟩ := exists_of_ofLeaf h
        trivial
      · exact Except.ok.inj h ▸ trivial

end Treatment

end PhpLint
