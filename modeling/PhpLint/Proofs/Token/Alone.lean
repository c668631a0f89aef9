import PhpLint.Proofs.Token.Fronts
import PhpLint.Proofs.Token.Spelling

/-! Which tokens are the same tokens on their own: those that stand in code, and neither markup nor
the open tag that ends it. -/

namespace PhpLint.Token

variable {c quote : Char} {front rest : List Char} {kind : Kind}

/-- Text outside of code, and what ends it. -/
def isMarkup (kind : Kind) : Bool := kind == .inlineHtml || kind == .openTag

theorem isMarkup_nameKind (name : List Char) : isMarkup (nameKind name) = false :=
  nameKind_of_keywords (p := (isMarkup · = false)) rfl (by decide) name

theorem isMarkup_quotedLexeme (hkind : isMarkup kind = false) :
    isMarkup (quotedLexeme kind quote rest).kind = false := by
  unfold quotedLexeme
  split
  · exact hkind
  · rfl

theorem isMarkup_plainLexeme (c : Char) (rest : List Char) :
    isMarkup (plainLexeme c rest).kind = false := by
  have hplain := plain_plainLexeme c rest
  generalize plainLexeme c rest = found at hplain
  cases hplain with
  | shell | string => exact isMarkup_quotedLexeme rfl
  | lineComment | blockComment | dollar | varName => rfl
  | number =>
    unfold number
    split
    · rfl
    · dsimp only
      split <;> rfl
  | name => exact isMarkup_nameKind _
  | other => exact kind_of_operators (p := (isMarkup · = false)) rfl (by decide) (c :: rest)

theorem isMarkup_codeLexeme {found : Lexeme} (h : codeLexeme c rest = .ok found) :
    isMarkup found.kind = false := by
  unfold codeLexeme at h
  dsimp only at h
  split at h
  · cases h
    rfl
  split at h
  · cases h
    rfl
  split at h
  · cases h
    rfl
  split at h
  · split at h <;> cases h
    · rfl
    · exact isMarkup_plainLexeme c rest
  · cases h
    exact isMarkup_plainLexeme c rest

theorem isMarkup_markupLexeme (c : Char) (rest : List Char) :
    isMarkup (markupLexeme c rest).kind = true := by
  unfold markupLexeme
  dsimp only
  split <;> rfl

theorem scan_eq_singleton {found : Lexeme} (hfound : codeLexeme c front = .ok found)
    (h : found.length = front.length + 1) :
    scan .code (c :: front) = .ok [⟨found.kind, .ofList (c :: front)⟩] := by
  rw [scan]
  simp only [lexeme, hfound, h, Nat.add_sub_cancel, List.drop_length, List.take_length]
  rw [scan]

/-- A token of code that is cut off a text is a lexeme there. -/
theorem Cuts.exists_codeLexeme {mode last : Mode} {cs left : List Char} {tokens : List Token}
    {token : Token} (h : Cuts mode cs tokens last left) (hmem : token ∈ tokens)
    (hkind : isMarkup token.kind = false) : ∃ c front behind found,
      codeLexeme c (front ++ behind) = .ok found ∧ token.kind = found.kind ∧
        token.text.toList = c :: front ∧ found.length = front.length + 1 := by
  induction h with
  | done => cases hmem
  | @token mode _ c rest behind _ found cut _ hfound hcut hlength htext _ ih =>
    rcases List.mem_cons.1 hmem with rfl | hmem
    · have hpos := (lexeme_within hfound).1
      rw [← String.length_toList] at hlength
      cases hfront : token.text.toList with
      | nil =>
        rw [hfront, List.length_nil] at hlength
        omega
      | cons d front =>
        rw [hfront, List.cons_append, List.cons.injEq] at htext
        obtain ⟨rfl, rfl⟩ := htext
        rw [hfront, List.length_cons] at hlength
        cases mode with
        | markup =>
          cases hfound
          rw [hcut, isMarkup_markupLexeme] at hkind
          cases hkind
        | code => exact ⟨c, front, behind, found, hfound, hcut, rfl, hlength.symm⟩
    · exact ih hmem

/-- A token of code is one token alone, and classified as what it is. One of markup is neither, for
alone it is taken for code. -/
theorem ofCode_and_classify_text {source : String} {tokens : List Token} {token : Token}
    (htokens : ofCode source = .ok tokens) (hmem : token ∈ tokens)
    (herror : token.kind ≠ .errorToken) (hbase : ¬ IsBareBase token.text.toList) :
    (ofCode token.text = .ok [token] ↔ isMarkup token.kind = false) ∧
      (classify token.text = .ok (some token.kind) ↔ isMarkup token.kind = false) := by
  have halone : isMarkup token.kind = false → ofCode token.text = .ok [token] := by
    intro hkind
    obtain ⟨last, hcuts⟩ := exists_cuts_of_scan htokens
    obtain ⟨c, front, behind, found, hfound, hcut, htext, hlength⟩ :=
      hcuts.exists_codeLexeme hmem hkind
    rw [htext] at hbase
    rw [hcut] at herror
    have hscan := scan_eq_singleton (codeLexeme_front hbase hfound herror hlength) hlength
    rw [← htext, ← hcut, String.ofList_toList] at hscan
    exact hscan
  have hclassify : ofCode token.text = .ok [token] →
      classify token.text = .ok (some token.kind) := by
    intro honly
    rw [classify, honly]
    exact congrArg Except.ok (if_neg herror)
  have hcode : classify token.text = .ok (some token.kind) → isMarkup token.kind = false := by
    intro h
    obtain ⟨_, _, _, -, hfound, hkind, -⟩ := exists_lexeme_of_classify h
    exact hkind ▸ isMarkup_codeLexeme hfound
  exact ⟨⟨fun h => hcode (hclassify h), halone⟩, ⟨hcode, fun h => hclassify (halone h)⟩⟩

/-- A heredoc, whose end is found by looking beyond it. -/
theorem ofCode_and_classify_text_heredoc :
    ofCode "<<<E\nE1\n E" = .ok [⟨.heredoc, "<<<E\nE1\n E"⟩] ∧
      classify "<<<E\nE1\n E" = .ok (some .heredoc) := by
  have htokens : ofCode "<<<E\nE1\n E;" =
      .ok [⟨.heredoc, "<<<E\nE1\n E"⟩, ⟨.semicolon, ";"⟩] := by decide +kernel
  obtain ⟨honly, hkind⟩ := ofCode_and_classify_text htokens
    (List.mem_cons_self ..) (by decide) (by decide +kernel)
  exact ⟨honly.2 rfl, hkind.2 rfl⟩

/-- Text behind a close tag is markup, and code where it stands alone. -/
theorem exists_token_of_markup_not_alone :
    ∃ source tokens, ofCode source = .ok tokens ∧
      ∃ token ∈ tokens, token.kind ≠ .errorToken ∧ ofCode token.text ≠ .ok [token] ∧
        classify token.text ≠ .ok (some token.kind) :=
  ⟨"?>a", [⟨.closeTag, "?>"⟩, ⟨.inlineHtml, "a"⟩], by decide +kernel, ⟨.inlineHtml, "a"⟩, by simp,
    by decide, by decide +kernel, by decide +kernel⟩

end PhpLint.Token
