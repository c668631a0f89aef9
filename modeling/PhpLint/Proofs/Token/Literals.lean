import PhpLint.Proofs.Token.Alone

/-! How the tokens of strings and whole numbers are spelled. A string token ends with the quote that
it begins with; a number is a base prefix and hexadecimal digits, or a run of decimal digits. -/

namespace PhpLint.Token

variable {c quote : Char} {cs rest : List Char} {n : Nat} {found : Lexeme} {source : String}
  {tokens : List Token} {token : Token}

theorem codeLexeme_of_quote (h : c = '\x27' ∨ c = '\x22') (rest : List Char) :
    codeLexeme c rest = .ok (quotedLexeme .string c rest) := by
  rw [← (Plain.string h).eq]
  rcases h with rfl | rfl <;> exact codeLexeme_eq_plainLexeme (by simp) rfl (by simp) (by simp)

theorem exists_of_quotedLength?_eq_some (h : quotedLength? quote cs = some n) :
    ∃ body, cs.take n = body ++ [quote] := by
  fun_induction quotedLength? quote cs generalizing n with
  | case1 => cases h
  | case2 => cases h
  | case3 d cs ih =>
    obtain ⟨m, hm, rfl⟩ := Option.map_eq_some_iff.1 h
    obtain ⟨body, hbody⟩ := ih hm
    exact ⟨'\\' :: d :: body, by simp [hbody]⟩
  | case4 d cs _ _ hquote =>
    cases h
    exact ⟨[], by simpa using hquote⟩
  | case5 d cs _ _ hquote ih =>
    obtain ⟨m, hm, rfl⟩ := Option.map_eq_some_iff.1 h
    obtain ⟨body, hbody⟩ := ih hm
    exact ⟨d :: body, by simp [hbody]⟩

/-- A number is a whole one only if a base prefix opens it, or if it is nothing but digits. -/
theorem of_number_eq_intNumber (h : (number cs).1 = .intNumber) :
    (∃ b ∈ ['x', 'X', 'b', 'B', 'o', 'O'], ∃ after, cs = '0' :: b :: after ∧
      (number cs).2 = 2 + (after.takeWhile isHexPart).length) ∨
    (number cs).2 = digitsLength cs := by
  unfold number at h ⊢
  split
  next hbase =>
    obtain ⟨b, hb, after, -, rfl⟩ := exists_of_isBasePrefix hbase
    exact .inl ⟨b, hb, after, rfl, rfl⟩
  next hbase =>
    rw [if_neg hbase] at h
    dsimp only at h ⊢
    split at h
    next hnone =>
      rw [beq_iff_eq] at hnone
      exact .inr (by omega)
    next => cases h

/-- Strings and whole numbers are told by their first character. -/
theorem string_or_number (h : codeLexeme c rest = .ok found)
    (hkind : found.kind = .string ∨ found.kind = .intNumber) :
    (c = '\x27' ∨ c = '\x22') ∧ found = quotedLexeme .string c rest ∨
    (c.isDigit = true ∨ c = '.' ∧ rest.head?.any Char.isDigit = true) ∧
      found = ⟨(number (c :: rest)).1, (number (c :: rest)).2, .code⟩ := by
  have hplain : found = plainLexeme c rest := by
    unfold codeLexeme at h
    dsimp only at h
    split at h
    · cases h
      simp at hkind
    split at h
    · cases h
      simp at hkind
    split at h
    · cases h
      simp at hkind
    split at h
    · split at h <;> cases h
      · simp at hkind
      · rfl
    · cases h
      rfl
  subst hplain
  have hplain := plain_plainLexeme c rest
  generalize plainLexeme c rest = found at hplain hkind
  cases hplain with
  | string hc => exact .inl ⟨hc, rfl⟩
  | number hc => exact .inr ⟨hc, rfl⟩
  | shell =>
    unfold quotedLexeme at hkind
    split at hkind <;> simp at hkind
  | name =>
    exact absurd hkind (nameKind_of_keywords (p := fun k => ¬ (k = .string ∨ k = .intNumber))
      (by decide) (by decide) _)
  | other =>
    exact absurd hkind (kind_of_operators (p := fun k => ¬ (k = .string ∨ k = .intNumber))
      (by decide) (by decide) _)
  | lineComment | blockComment | dollar | varName => simp at hkind

/-- A token of code, as the lexeme that it is in front of what follows it. -/
theorem exists_codeLexeme_of_mem (htokens : ofCode source = .ok tokens) (hmem : token ∈ tokens)
    (hkind : isMarkup token.kind = false) : ∃ c front behind found,
      codeLexeme c (front ++ behind) = .ok found ∧ token.kind = found.kind ∧
        token.text.toList = c :: front ∧ found.length = front.length + 1 := by
  obtain ⟨last, hcuts⟩ := exists_cuts_of_scan htokens
  exact hcuts.exists_codeLexeme hmem hkind

/-- A string token stands between quotes of one kind. -/
theorem exists_body_of_string (htokens : ofCode source = .ok tokens) (hmem : token ∈ tokens)
    (hkind : token.kind = .string) : ∃ quote body, (quote = '\x27' ∨ quote = '\x22') ∧
      token.text.toList = quote :: (body ++ [quote]) := by
  obtain ⟨c, front, behind, found, hfound, hsame, htext, hlength⟩ :=
    exists_codeLexeme_of_mem htokens hmem (by rw [hkind]; rfl)
  rw [hsame] at hkind
  rcases string_or_number hfound (.inl hkind) with ⟨hquote, rfl⟩ | ⟨-, rfl⟩
  · unfold quotedLexeme at hkind hlength
    cases hsize : quotedLength? c (front ++ behind) with
    | none =>
      rw [hsize] at hkind
      cases hkind
    | some n =>
      rw [hsize] at hlength
      dsimp only at hlength
      obtain rfl : n = front.length := by omega
      obtain ⟨body, hbody⟩ := exists_of_quotedLength?_eq_some hsize
      rw [List.take_left] at hbody
      exact ⟨c, body, hquote, by rw [htext, hbody]⟩
  · have hnumber : ∀ cs, (number cs).1 ≠ .string := by
      intro cs
      unfold number
      split
      · nofun
      · dsimp only
        split <;> nofun
    exact absurd hkind (hnumber _)

/-- How the token of a whole number is spelled. -/
inductive WholeNumber : List Char → Prop where
  | based {b : Char} {digits : List Char} (hb : b ∈ ['x', 'X', 'b', 'B', 'o', 'O'])
      (hdigits : ∀ c ∈ digits, isHexPart c = true) : WholeNumber ('0' :: b :: digits)
  | plain {d : Char} {digits : List Char} (hd : d.isDigit = true)
      (hdigits : ∀ c ∈ digits, isDigitPart c = true) : WholeNumber (d :: digits)

theorem wholeNumber_of_intNumber (htokens : ofCode source = .ok tokens) (hmem : token ∈ tokens)
    (hkind : token.kind = .intNumber) : WholeNumber token.text.toList := by
  obtain ⟨c, front, behind, found, hfound, hsame, htext, hlength⟩ :=
    exists_codeLexeme_of_mem htokens hmem (by rw [hkind]; rfl)
  rw [hsame] at hkind
  rw [htext]
  rcases string_or_number hfound (.inr hkind) with ⟨-, rfl⟩ | ⟨hc, rfl⟩
  · unfold quotedLexeme at hkind
    split at hkind <;> cases hkind
  have htake : (c :: (front ++ behind)).take (front.length + 1) = c :: front := by simp
  rcases of_number_eq_intNumber hkind with ⟨b, hb, after, hcs, hsize⟩ | hsize
  · rw [hcs, ← hlength, hsize, Nat.add_comm 2, List.take_succ_cons, List.take_succ_cons,
      ← List.prefix_iff_eq_take.1 (List.takeWhile_prefix _)] at htake
    rw [← htake]
    exact .based hb fun d hd => List.all_eq_true.1 List.all_takeWhile d hd
  · rw [← hlength, hsize, digitsLength,
      ← List.prefix_iff_eq_take.1 (List.takeWhile_prefix _)] at htake
    have hrun := htake ▸ List.all_takeWhile
    rw [List.all_cons, Bool.and_eq_true, List.all_eq_true] at hrun
    refine .plain ?_ hrun.2
    rcases hc with hc | ⟨rfl, -⟩
    · exact hc
    · exact absurd hrun.1 (by decide)

end PhpLint.Token
