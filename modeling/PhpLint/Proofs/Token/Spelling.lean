import PhpLint.Proofs.Token.Lossless

/-! How a text is spelled that the lexer takes for one token. A keyword is in the table of reserved
words but for its case, an operator in the table of operators as it stands. -/

namespace PhpLint.Token

/-- What is known of the text of a token from its kind. -/
structure Spelled (kind : Kind) (text : String) : Prop where
  keyword : kind.isKeyword = true → (text.toLower, kind) ∈ Kind.keywords
  operator : kind.isOperatorOrPunctuation = true → (text, kind) ∈ operators

variable {kind : Kind} {text : String} {c : Char} {rest : List Char} {found : Lexeme}

/-- Of a kind that is neither a keyword nor an operator nothing is asked. -/
theorem spelled_of_free (hkeyword : kind.isKeyword = false)
    (hoperator : kind.isOperatorOrPunctuation = false) : Spelled kind text :=
  ⟨fun h => by simp [hkeyword] at h, fun h => by simp [hoperator] at h⟩

theorem spelled_of_mem_keywords (h : (text.toLower, kind) ∈ Kind.keywords) : Spelled kind text := by
  have hwords : ∀ p ∈ Kind.keywords, p.2.isOperatorOrPunctuation = false := by decide
  exact ⟨fun _ => h, fun hoperator => by simp [hwords _ h] at hoperator⟩

theorem spelled_of_mem_operators (h : (text, kind) ∈ operators) : Spelled kind text := by
  have hwords : ∀ p ∈ operators, p.2.isKeyword = false := by decide
  exact ⟨fun hkeyword => by simp [hwords _ h] at hkeyword, fun _ => h⟩

/-- The lexeme, and the front of the text that it takes. -/
def Lexeme.Spells (found : Lexeme) (cs : List Char) : Prop :=
  Spelled found.kind (.ofList (cs.take found.length))

/-- What holds of names and of every keyword holds of the kind of a name. -/
theorem nameKind_of_keywords {p : Kind → Prop} (hident : p .ident)
    (hwords : ∀ word ∈ Kind.keywords, p word.2) (name : List Char) : p (nameKind name) := by
  unfold nameKind
  split
  · exact hident
  cases hkind : Kind.ofKeyword? (.ofList name) with
  | none => exact hident
  | some kind =>
    obtain ⟨front, behind, htable, -⟩ := List.lookup_eq_some_iff.1 hkind
    exact hwords ((String.ofList name).toLower, kind) (by rw [htable]; simp)

/-- What holds of every operator holds of the kind of what is read as one. -/
theorem kind_of_operators {p : Kind → Prop} (herror : p .errorToken)
    (hops : ∀ op ∈ operators, p op.2) (cs : List Char) :
    p ((operatorAt? cs).getD ⟨.errorToken, 1, .code⟩).kind := by
  cases hop : operatorAt? cs with
  | none => exact herror
  | some found =>
    obtain ⟨op, hmem, -, rfl⟩ := exists_of_operatorAt?_eq_some hop
    exact hops op hmem

theorem nameKind_spelled (name : List Char) : Spelled (nameKind name) (.ofList name) := by
  unfold nameKind
  split
  · exact spelled_of_free rfl rfl
  cases hkind : Kind.ofKeyword? (.ofList name) with
  | none => exact spelled_of_free rfl rfl
  | some kind =>
    obtain ⟨front, behind, htable, -⟩ := List.lookup_eq_some_iff.1 hkind
    exact spelled_of_mem_keywords (by rw [htable]; simp)

theorem quotedLexeme_spells (hkeyword : kind.isKeyword = false)
    (hoperator : kind.isOperatorOrPunctuation = false) (quote : Char) (rest cs : List Char) :
    (quotedLexeme kind quote rest).Spells cs := by
  unfold quotedLexeme
  split
  · exact spelled_of_free hkeyword hoperator
  · exact spelled_of_free rfl rfl

theorem operatorAt?_spells {cs : List Char} (h : operatorAt? cs = some found) : found.Spells cs := by
  obtain ⟨op, hop, hpre, rfl⟩ := exists_of_operatorAt?_eq_some h
  have htext : String.ofList (cs.take op.1.length) = op.1 := by
    rw [← String.length_toList, ← List.prefix_iff_eq_take.1 hpre, String.ofList_toList]
  exact spelled_of_mem_operators (htext.symm ▸ hop)

theorem plainLexeme_spells (c : Char) (rest : List Char) :
    (plainLexeme c rest).Spells (c :: rest) := by
  have hdollar : ("$", Kind.dollar) ∈ operators := by decide
  unfold plainLexeme
  dsimp only
  split
  · exact quotedLexeme_spells rfl rfl ..
  split
  · exact spelled_of_free rfl rfl
  split
  · exact spelled_of_free rfl rfl
  split
  next h =>
    obtain rfl : c = '$' := by simpa using h
    split
    · exact spelled_of_mem_operators hdollar
    · exact spelled_of_free rfl rfl
  split
  · exact quotedLexeme_spells rfl rfl ..
  split
  next =>
    have hnumber : (number (c :: rest)).1.isKeyword = false ∧
        (number (c :: rest)).1.isOperatorOrPunctuation = false := by
      unfold number
      split
      · exact ⟨rfl, rfl⟩
      · dsimp only
        split <;> exact ⟨rfl, rfl⟩
    exact spelled_of_free hnumber.1 hnumber.2
  split
  · exact nameKind_spelled _
  next =>
    cases hop : operatorAt? (c :: rest) with
    | none => exact spelled_of_free rfl rfl
    | some found => exact operatorAt?_spells hop

theorem codeLexeme_spells (h : codeLexeme c rest = .ok found) : found.Spells (c :: rest) := by
  unfold codeLexeme at h
  dsimp only at h
  split at h
  · cases h
    exact spelled_of_free rfl rfl
  split at h
  · cases h
    exact spelled_of_free rfl rfl
  split at h
  · cases h
    exact spelled_of_free rfl rfl
  split at h
  next =>
    split at h
    · cases h
    · cases h
      exact spelled_of_free rfl rfl
    · cases h
      exact plainLexeme_spells ..
  next =>
    cases h
    exact plainLexeme_spells ..

/-- A text that is one token is one lexeme, from its first character to its last. -/
theorem exists_lexeme_of_classify (h : classify text = .ok (some kind)) :
    ∃ c rest found, text.toList = c :: rest ∧ codeLexeme c rest = .ok found ∧ found.kind = kind ∧
      (c :: rest).take found.length = c :: rest := by
  unfold classify ofCode at h
  cases hscan : scan .code text.toList with
  | error fault =>
    rw [hscan] at h
    cases h
  | ok tokens =>
    rw [hscan] at h
    rcases tokens with _ | ⟨only, _ | ⟨next, tokens⟩⟩
    · cases h
    · simp only [Except.map, Except.ok.injEq] at h
      split at h
      · cases h
      · cases h
        obtain ⟨last, hcuts⟩ := exists_cuts_of_scan hscan
        generalize text.toList = cs at hcuts ⊢
        cases hcuts with
        | token hfound hkind hlength hcs hbehind =>
          cases hbehind
          rw [List.append_nil] at hcs
          refine ⟨_, _, _, rfl, hfound, hkind.symm, ?_⟩
          rw [← hlength, ← String.length_toList, ← hcs, List.take_length]
    · cases h

/-- A text that is one token is spelled as its kind asks. -/
theorem spelled_of_classify (h : classify text = .ok (some kind)) : Spelled kind text := by
  obtain ⟨c, rest, found, htext, hfound, rfl, htake⟩ := exists_lexeme_of_classify h
  have hspells := codeLexeme_spells hfound
  rwa [Lexeme.Spells, htake, ← htext, String.ofList_toList] at hspells

/-! Kinds of tokens. -/

theorem isToken_quotedLexeme (hkind : kind.isToken = true) (quote : Char) (rest : List Char) :
    (quotedLexeme kind quote rest).kind.isToken = true := by
  unfold quotedLexeme
  split
  · exact hkind
  · rfl

theorem isToken_nameKind (name : List Char) : (nameKind name).isToken = true :=
  nameKind_of_keywords (p := (·.isToken = true)) rfl (by decide) name

theorem isToken_plainLexeme (c : Char) (rest : List Char) :
    (plainLexeme c rest).kind.isToken = true := by
  unfold plainLexeme
  dsimp only
  split
  · exact isToken_quotedLexeme rfl ..
  split
  · rfl
  split
  · rfl
  split
  · split <;> rfl
  split
  · exact isToken_quotedLexeme rfl ..
  split
  · unfold number
    split
    · rfl
    · dsimp only
      split <;> rfl
  split
  · exact isToken_nameKind _
  · exact kind_of_operators (p := (·.isToken = true)) rfl (by decide) (c :: rest)

theorem isToken_codeLexeme (h : codeLexeme c rest = .ok found) : found.kind.isToken = true := by
  unfold codeLexeme at h
  dsimp only at h
  split at h
  · cases h
    rfl
  split at h
  · cases h
    rfl
  split at h
  · cases h
    rfl
  split at h
  next =>
    split at h
    · cases h
    · cases h
      rfl
    · cases h
      exact isToken_plainLexeme ..
  next =>
    cases h
    exact isToken_plainLexeme ..

/-- Whatever a text is classified as is a kind of token. -/
theorem isToken_of_classify (h : classify text = .ok (some kind)) : kind.isToken = true := by
  obtain ⟨_, _, _, -, hfound, rfl, -⟩ := exists_lexeme_of_classify h
  exact isToken_codeLexeme hfound

end PhpLint.Token
