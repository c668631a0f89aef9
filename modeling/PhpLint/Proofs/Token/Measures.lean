import PhpLint.Proofs.Token.Lossless

/-! What the measures of lexemes say. Where a measure is put together by optional parts, or found by
a search, there is one equation or equivalence for it here, and `plain_plainLexeme` has the classes
of code by what they begin with, so that no later proof opens a measure. -/

namespace PhpLint.Token

variable {c quote : Char} {label rest : List Char} {n : Nat}

theorem quotedLength?_pos (h : quotedLength? quote rest = some n) : 0 < n := by
  have hzero : quotedLength? quote rest ≠ some 0 := by
    fun_cases quotedLength? quote rest <;> simp
  exact Nat.pos_of_ne_zero fun hn => hzero (hn ▸ h)

theorem quotedLength?_cons (hc : c ≠ '\\') (cs : List Char) :
    quotedLength? quote (c :: cs) =
      if c == quote then some 1 else (quotedLength? quote cs).map (· + 1) :=
  quotedLength?.eq_4 quote c cs (fun h _ => hc h) fun _ _ h _ => hc h

/-! Numbers, part by part. -/

theorem digitsLength_pos (h : c.isDigit = true) : 0 < digitsLength (c :: rest) :=
  length_takeWhile_pos (by simp [isDigitPart, h])

theorem fractionLength_cons_cons (d e : Char) (cs : List Char) :
    fractionLength (d :: e :: cs) =
      if d = '.' ∧ e.isDigit = true then 1 + digitsLength (e :: cs) else 0 := by
  by_cases hd : d = '.'
  · simp [hd, fractionLength]
  · rw [fractionLength, if_neg fun h => hd h.1]
    rintro _ _ ⟨⟩
    exact hd rfl

theorem fractionLength_singleton (d : Char) : fractionLength [d] = 0 :=
  fractionLength.eq_2 [d] fun _ _ h => List.cons_ne_nil _ _ (List.cons.inj h).2.symm

/-- The sign of an exponent, if there is one. -/
def signLength (cs : List Char) : Nat :=
  if cs.head?.any fun c => c == '+' || c == '-' then 1 else 0

theorem signLength_le_one (cs : List Char) : signLength cs ≤ 1 := by
  unfold signLength
  split <;> decide

theorem exponentLength_cons (e : Char) (cs : List Char) :
    exponentLength (e :: cs) =
      if (e = 'e' ∨ e = 'E') ∧ digitsLength (cs.drop (signLength cs)) ≠ 0 then
        1 + signLength cs + digitsLength (cs.drop (signLength cs))
      else 0 := by
  rw [exponentLength]
  change (if _ then if (digitsLength (cs.drop (signLength cs)) == 0) = true then _ else _ else _) = _
  by_cases he : e = 'e' ∨ e = 'E'
  · by_cases hd : digitsLength (cs.drop (signLength cs)) = 0
    · simp [hd]
    · simp [he, signLength]
  · simp [he]

theorem exists_of_isBasePrefix (h : isBasePrefix rest = true) :
    ∃ b ∈ ['x', 'X', 'b', 'B', 'o', 'O'], ∃ after, after ≠ [] ∧ rest = '0' :: b :: after := by
  unfold isBasePrefix at h
  split at h
  next b d after => exact ⟨b, by simpa using h, d :: after, nofun, rfl⟩
  next => cases h

namespace Heredoc

theorem drop_length_takeWhile (p : Char → Bool) (cs : List Char) :
    cs.drop (cs.takeWhile p).length = cs.dropWhile p := by
  calc cs.drop (cs.takeWhile p).length
      = (cs.takeWhile p ++ cs.dropWhile p).drop (cs.takeWhile p).length := by
        rw [List.takeWhile_append_dropWhile]
    _ = cs.dropWhile p := List.drop_left

/-- A closing line, after its indentation, is the label and something that does not carry it on. -/
theorem markerLength?_eq_some_iff : markerLength? label rest = some n ↔
    ∃ after, rest.dropWhile isIndent = label ++ after ∧ after.head?.any isNamePart = false ∧
      n = (rest.takeWhile isIndent).length + label.length := by
  simp only [markerLength?, Bool.and_eq_true, List.isPrefixOf_iff_prefix, Bool.not_eq_true']
  constructor
  · intro h
    split at h
    next hlabel =>
      obtain ⟨⟨after, hafter⟩, hnone⟩ := hlabel
      rw [← hafter, List.drop_left] at hnone
      exact ⟨after, hafter.symm, hnone, (Option.some.inj h).symm⟩
    next => cases h
  · rintro ⟨after, hafter, hnone, rfl⟩
    rw [if_pos ⟨⟨after, hafter.symm⟩, by rwa [hafter, List.drop_left]⟩]

/-- The body of a heredoc ends in the line that begins here, or in a later one. -/
theorem bodyLength?_cons_eq_some_iff : bodyLength? label (c :: rest) = some n ↔
    ∃ m, n = m + 1 ∧ (c = '\n' ∧ markerLength? label rest = some m ∨
      (c = '\n' → markerLength? label rest = none) ∧ bodyLength? label rest = some m) := by
  rw [bodyLength?]
  by_cases hc : c = '\n'
  · simp only [hc, beq_self_eq_true, if_true, Option.or_eq_some_iff, Option.map_eq_some_iff,
      Option.map_eq_none_iff, true_and, forall_const]
    constructor
    · rintro (⟨m, hm, rfl⟩ | ⟨hnone, m, hm, rfl⟩)
      · exact ⟨m, rfl, .inl hm⟩
      · exact ⟨m, rfl, .inr ⟨hnone, hm⟩⟩
    · rintro ⟨m, rfl, hm | ⟨hnone, hm⟩⟩
      · exact .inl ⟨m, hm, rfl⟩
      · exact .inr ⟨hnone, m, hm, rfl⟩
  · simp only [hc, beq_iff_eq, if_false, Option.map_eq_some_iff, false_and, false_or,
      false_implies, true_and]
    exact exists_congr fun m => by rw [and_comm, eq_comm]

theorem newline_of_bodyLength? (h : bodyLength? label rest = some n) : '\n' ∈ rest.take n := by
  induction rest generalizing n with
  | nil => cases h
  | cons c rest ih =>
    obtain ⟨m, rfl, hbody⟩ := bodyLength?_cons_eq_some_iff.1 h
    rw [List.take_succ_cons, List.mem_cons]
    exact hbody.imp (fun hend => hend.1.symm) fun hlater => ih hlater.2

/-- The quote in front of a label, if there is one. -/
def quoteLength (cs : List Char) : Nat :=
  if cs.head?.any fun c => c == '\x27' || c == '\x22' then 1 else 0

theorem lengthAfter?_eq (cs : List Char) : lengthAfter? cs =
    let quote := quoteLength (cs.dropWhile isIndent)
    let named := (cs.dropWhile isIndent).drop quote
    let after := named.drop (nameLength named)
    if nameLength named = 0 then .ok none
    else if after.length < quote then .error .openHeredocQuote
    else
      .ok ((bodyLength? (named.take (nameLength named)) (after.drop quote)).map fun m =>
        3 + ((cs.takeWhile isIndent).length + quote + nameLength named + quote) + m) := by
  unfold lengthAfter? quoteLength
  generalize cs.dropWhile isIndent = head
  cases hquoted : head.head?.any fun c => c == '\x27' || c == '\x22' with
  | false => simp [hquoted]
  | true => simp [hquoted, Nat.sub_eq_zero_iff_le]

theorem lengthAfter?_eq_some_iff : lengthAfter? rest = .ok (some n) ↔
    let quote := quoteLength (rest.dropWhile isIndent)
    let named := (rest.dropWhile isIndent).drop quote
    let after := named.drop (nameLength named)
    nameLength named ≠ 0 ∧ quote ≤ after.length ∧
      ∃ m, bodyLength? (named.take (nameLength named)) (after.drop quote) = some m ∧
        n = 3 + ((rest.takeWhile isIndent).length + quote + nameLength named + quote) + m := by
  rw [lengthAfter?_eq]
  dsimp only
  split
  next hsize => simp [hsize]
  next hsize =>
    split
    next hroom => exact ⟨nofun, fun h => absurd h.2.1 (Nat.not_le_of_lt hroom)⟩
    next hroom =>
      simp only [Except.ok.injEq, Option.map_eq_some_iff, ne_eq, hsize, not_false_eq_true,
        Nat.le_of_not_lt hroom, true_and, eq_comm (a := n)]

theorem isNamePart_of_mem_take_nameLength (cs : List Char) :
    ∀ c ∈ cs.take (nameLength cs), isNamePart c = true := by
  intro c hc
  unfold nameLength at hc
  split at hc
  · cases hc
  · split at hc
    · rw [← List.prefix_iff_eq_take.1 (List.takeWhile_prefix _)] at hc
      exact List.all_eq_true.1 List.all_takeWhile c hc
    · cases hc

end Heredoc

/-! Lexemes of code. -/

/-- A lexeme of code by what its text begins with. -/
inductive Plain (c : Char) (rest : List Char) : Lexeme → Prop where
  | shell (hc : c = '\x60') : Plain c rest (quotedLexeme .shellCommand c rest)
  | lineComment (hc : c = '#' ∨ c = '/' ∧ rest.head? = some '/') :
    Plain c rest ⟨.comment, lineCommentLength (c :: rest), .code⟩
  | blockComment (hc : c = '/' ∧ rest.head? = some '*') :
    Plain c rest ⟨.comment, 2 + blockCommentLength (rest.drop 1), .code⟩
  | dollar (hc : c = '$') (hname : nameLength rest = 0) : Plain c rest ⟨.dollar, 1, .code⟩
  | varName (hc : c = '$') (hname : nameLength rest ≠ 0) :
    Plain c rest ⟨.varName, 1 + nameLength rest, .code⟩
  | string (hc : c = '\x27' ∨ c = '\x22') : Plain c rest (quotedLexeme .string c rest)
  | number (hc : c.isDigit = true ∨ c = '.' ∧ rest.head?.any Char.isDigit = true) :
    Plain c rest ⟨(number (c :: rest)).1, (number (c :: rest)).2, .code⟩
  | name (hc : isNameStart c = true ∨ c = '\\' ∧ rest.head?.any isNameStart = true) :
    Plain c rest ⟨nameKind ((c :: rest).take (qualifiedLength (c :: rest))),
      qualifiedLength (c :: rest), .code⟩
  | other (hfound : plainLexeme c rest =
      (operatorAt? (c :: rest)).getD ⟨.errorToken, 1, .code⟩) :
    Plain c rest ((operatorAt? (c :: rest)).getD ⟨.errorToken, 1, .code⟩)

theorem plain_plainLexeme (c : Char) (rest : List Char) : Plain c rest (plainLexeme c rest) := by
  have hother : plainLexeme c rest = _ → Plain c rest _ := Plain.other
  unfold plainLexeme at hother ⊢
  dsimp only at hother ⊢
  split
  next hc => exact .shell (by simpa using hc)
  next hshell =>
  rw [if_neg hshell] at hother
  split
  next hc => exact .lineComment (by simpa using hc)
  next hline =>
  rw [if_neg hline] at hother
  split
  next hc => exact .blockComment (by simpa using hc)
  next hblock =>
  rw [if_neg hblock] at hother
  split
  next hc =>
    split
    next hname => exact .dollar (by simpa using hc) (by simpa using hname)
    next hname => exact .varName (by simpa using hc) (by simpa using hname)
  next hdollar =>
  rw [if_neg hdollar] at hother
  split
  next hc => exact .string (by simpa using hc)
  next hstring =>
  rw [if_neg hstring] at hother
  split
  next hc => exact .number (by simpa using hc)
  next hnumber =>
  rw [if_neg hnumber] at hother
  split
  next hc => exact .name (by simpa using hc)
  next hname =>
  rw [if_neg hname] at hother
  exact hother rfl

theorem not_isDigit_of_isNameStart (h : isNameStart c = true) : c.isDigit = false := by
  rw [Bool.eq_false_iff]
  intro hdigit
  unfold isNameStart Char.isAlpha Char.isUpper Char.isLower at h
  simp only [Char.isDigit, Bool.or_eq_true, Bool.and_eq_true, decide_eq_true_eq, beq_iff_eq,
    ge_iff_le, UInt32.le_iff_toNat_le] at h hdigit
  have hval : c.toNat = c.val.toNat := rfl
  rcases h with (rfl | h | h) | h
  · exact absurd hdigit.2 (by decide)
  all_goals
    simp at h hdigit
    omega

/-- No character of another class begins a text of this one. -/
theorem ne_of_class {p : Char → Bool} (h : p c = true) {d : Char} (hd : p d = false) : c ≠ d := by
  rintro rfl
  rw [h] at hd
  cases hd

theorem Plain.eq {found : Lexeme} (h : Plain c rest found) : plainLexeme c rest = found := by
  cases h with
  | shell hc => simp [plainLexeme, hc]
  | lineComment hc => rcases hc with rfl | ⟨rfl, hnext⟩ <;> simp [plainLexeme, *]
  | blockComment hc =>
    obtain ⟨rfl, hnext⟩ := hc
    simp [plainLexeme, hnext]
  | dollar hc hname =>
    subst hc
    simp [plainLexeme, hname]
  | varName hc hname =>
    subst hc
    simp [plainLexeme, hname]
  | string hc => rcases hc with rfl | rfl <;> simp [plainLexeme]
  | number hc =>
    rcases hc with hc | ⟨rfl, hnext⟩
    · have hne : ∀ d, d.isDigit = false → c ≠ d := fun d => ne_of_class hc
      simp [plainLexeme, hc, hne '\x60' rfl, hne '#' rfl, hne '/' rfl, hne '$' rfl,
        hne '\x27' rfl, hne '\x22' rfl]
    · simp [plainLexeme, hnext]
  | name hc =>
    rcases hc with hc | ⟨rfl, hnext⟩
    · have hne : ∀ d, isNameStart d = false → c ≠ d := fun d => ne_of_class hc
      simp [plainLexeme, hc, hne '\x60' rfl, hne '#' rfl, hne '/' rfl, hne '$' rfl,
        hne '\x27' rfl, hne '\x22' rfl, hne '.' rfl, not_isDigit_of_isNameStart hc]
    · simp [plainLexeme, hnext]
  | other hfound => exact hfound

theorem codeLexeme_eq_plainLexeme (hclose : ¬ (c = '?' ∧ rest.head? = some '>'))
    (hblank : Text.isBlank c = false) (hattribute : ¬ (c = '#' ∧ rest.head? = some '['))
    (hheredoc : ¬ ['<', '<', '<'] <+: c :: rest) :
    codeLexeme c rest = .ok (plainLexeme c rest) := by
  unfold codeLexeme
  dsimp only
  rw [if_neg (by simpa using hclose), if_neg (by simp [hblank]), if_neg (by simpa using hattribute),
    if_neg (by simpa [List.isPrefixOf_iff_prefix] using hheredoc)]

theorem codeLexeme_of_closeTag (cs : List Char) : codeLexeme '?' ('>' :: cs) =
    .ok ⟨.closeTag, if cs.head?.any (· == '\n') then 3 else 2, .markup⟩ := rfl

theorem codeLexeme_of_isBlank (h : Text.isBlank c = true) : codeLexeme c rest =
    .ok ⟨.whitespace, ((c :: rest).takeWhile Text.isBlank).length, .code⟩ := by
  have hc : c ≠ '?' := ne_of_class h rfl
  simp [codeLexeme, hc, h]

theorem codeLexeme_of_attribute (cs : List Char) : codeLexeme '#' ('[' :: cs) =
    .ok ⟨.comment, 1 + bracketedLength 0 ('[' :: cs), .code⟩ := rfl

theorem codeLexeme_of_heredoc {cs : List Char} (h : Heredoc.lengthAfter? cs = .ok (some n)) :
    codeLexeme '<' ('<' :: '<' :: cs) = .ok ⟨.heredoc, n, .code⟩ := by
  have hblank : Text.isBlank '<' = false := rfl
  simp [codeLexeme, hblank, h]

end PhpLint.Token
