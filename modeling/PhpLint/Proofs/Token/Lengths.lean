import Mathlib.Data.List.Basic
import PhpLint.Token.Lexer

/-! Every lexeme takes at least its first character and no more than there is. Each class of
lexemes measures itself in its own way, so there is one bound for every measure, and the bounds
come together in `lexeme_within`. -/

namespace PhpLint.Token

variable {c : Char} {cs rest label : List Char} {n : Nat}

theorem length_takeWhile_le (p : Char → Bool) (cs : List Char) :
    (cs.takeWhile p).length ≤ cs.length :=
  (List.takeWhile_prefix p).length_le

theorem length_takeWhile_pos {p : Char → Bool} (h : p c = true) :
    0 < ((c :: cs).takeWhile p).length := by
  simp [h]

theorem markupLength_le (cs : List Char) : markupLength cs ≤ cs.length := by
  induction cs with
  | nil => exact Nat.le_refl 0
  | cons c cs ih =>
    rw [markupLength]
    split <;> simp only [List.length_cons] <;> omega

theorem five_le_length_of_isOpenTag (h : isOpenTag cs = true) : 5 ≤ cs.length := by
  unfold isOpenTag at h
  split at h
  · simp
  · cases h

theorem lineCommentLength_le (cs : List Char) : lineCommentLength cs ≤ cs.length := by
  fun_induction lineCommentLength cs with
  | case1 => exact Nat.le_refl 0
  | case2 => exact Nat.zero_le _
  | case3 => exact Nat.zero_le _
  | case4 c cs _ _ ih =>
    rw [List.length_cons]
    omega

theorem blockCommentLength_le (cs : List Char) : blockCommentLength cs ≤ cs.length := by
  fun_induction blockCommentLength cs with
  | case1 => exact Nat.le_refl 0
  | case2 => simp
  | case3 c cs _ ih =>
    rw [List.length_cons]
    omega

theorem bracketedLength_le (depth : Nat) (cs : List Char) :
    bracketedLength depth cs ≤ cs.length := by
  fun_induction bracketedLength depth cs <;> simp only [List.length_nil, List.length_cons] <;> omega

theorem le_of_quotedLength?_eq_some {quote : Char} (h : quotedLength? quote cs = some n) :
    n ≤ cs.length := by
  fun_induction quotedLength? quote cs generalizing n with
  | case1 => cases h
  | case2 => cases h
  | case3 d cs ih =>
    obtain ⟨m, hm, rfl⟩ := Option.map_eq_some_iff.1 h
    have := ih hm
    simp only [List.length_cons]
    omega
  | case4 cs => simp at h; simp [← h]
  | case5 c cs _ _ _ ih =>
    obtain ⟨m, hm, rfl⟩ := Option.map_eq_some_iff.1 h
    have := ih hm
    rw [List.length_cons]
    omega

theorem qualifiedLength_le (cs : List Char) : qualifiedLength cs ≤ cs.length := by
  fun_induction qualifiedLength cs <;>
    simp only [List.length_nil, List.length_cons] at * <;> omega

theorem nameLength_le (cs : List Char) : nameLength cs ≤ cs.length := by
  unfold nameLength
  split
  · exact Nat.zero_le _
  · split
    · exact length_takeWhile_le ..
    · exact Nat.zero_le _

theorem digitsLength_le (cs : List Char) : digitsLength cs ≤ cs.length :=
  length_takeWhile_le ..

theorem fractionLength_le (cs : List Char) : fractionLength cs ≤ cs.length := by
  unfold fractionLength
  split
  next d cs =>
    have := digitsLength_le (d :: cs)
    simp only [List.length_cons] at *
    split <;> omega
  next => exact Nat.zero_le _

theorem exponentLength_le (cs : List Char) : exponentLength cs ≤ cs.length := by
  unfold exponentLength
  split
  next e cs =>
    have hdigits := fun sign => digitsLength_le (cs.drop sign)
    simp only [List.length_drop] at hdigits
    dsimp only
    generalize (if (cs.head?.any fun c => c == '+' || c == '-') = true then 1 else 0) = sign
    have := hdigits sign
    simp only [beq_iff_eq, List.length_cons]
    split
    · split
      · exact Nat.zero_le _
      · omega
    · exact Nat.zero_le _
  next => exact Nat.le_refl 0

theorem number_length_le (cs : List Char) : (number cs).2 ≤ cs.length := by
  unfold number
  split
  next h =>
    have htwo : 2 ≤ cs.length := by
      unfold isBasePrefix at h
      split at h
      · simp
      · cases h
    have := length_takeWhile_le isHexPart (cs.drop 2)
    simp only [List.length_drop] at *
    omega
  next =>
    have hwhole := digitsLength_le cs
    have hfraction := fractionLength_le (cs.drop (digitsLength cs))
    have hexponent := exponentLength_le
      (cs.drop (digitsLength cs + fractionLength (cs.drop (digitsLength cs))))
    simp only [List.length_drop] at *
    omega

/-- A number starts with a digit, or with a point that a digit follows. -/
theorem number_length_pos (h : (c.isDigit || (c == '.' && rest.head?.any Char.isDigit)) = true) :
    0 < (number (c :: rest)).2 := by
  unfold number
  split
  next => exact Nat.add_pos_left Nat.two_pos _
  next =>
    dsimp only
    by_cases hc : c.isDigit = true
    · have : 0 < digitsLength (c :: rest) := length_takeWhile_pos (by simp [isDigitPart, hc])
      omega
    · simp only [hc, Bool.false_or, Bool.and_eq_true, beq_iff_eq] at h
      obtain ⟨rfl, hnext⟩ := h
      cases rest with
      | nil => simp at hnext
      | cons d rest =>
        have hd : d.isDigit = true := by simpa using hnext
        have : digitsLength ('.' :: d :: rest) = 0 := by simp [digitsLength, isDigitPart]
        simp only [this, List.drop_zero, fractionLength, hd, if_true]
        omega

namespace Heredoc

theorem le_of_markerLength?_eq_some (h : markerLength? label cs = some n) : n ≤ cs.length := by
  simp only [markerLength?, Bool.and_eq_true, List.isPrefixOf_iff_prefix] at h
  split at h
  next hlabel =>
    have hbody := hlabel.1.length_le
    have hcs := congrArg List.length (List.takeWhile_append_dropWhile (p := isIndent) (l := cs))
    rw [List.length_append] at hcs
    cases h
    omega
  next => cases h

theorem le_of_bodyLength?_eq_some (h : bodyLength? label cs = some n) : n ≤ cs.length := by
  induction cs generalizing n with
  | nil => cases h
  | cons c cs ih =>
    have hlater : ∀ m, (bodyLength? label cs).map (· + 1) = some m → m ≤ cs.length + 1 := by
      intro m hm
      obtain ⟨k, hk, rfl⟩ := Option.map_eq_some_iff.1 hm
      exact Nat.succ_le_succ (ih hk)
    rw [bodyLength?] at h
    rw [List.length_cons]
    split at h
    · rcases Option.or_eq_some_iff.1 h with hmarker | ⟨-, hbody⟩
      · obtain ⟨k, hk, rfl⟩ := Option.map_eq_some_iff.1 hmarker
        exact Nat.succ_le_succ (le_of_markerLength?_eq_some hk)
      · exact hlater n hbody
    · exact hlater n h

theorem le_of_lengthAfter?_eq_ok_some (h : lengthAfter? cs = .ok (some n)) :
    0 < n ∧ n ≤ cs.length + 3 := by
  simp only [lengthAfter?] at h
  generalize (cs.dropWhile isIndent).head?.any (fun c => c == '\x27' || c == '\x22') = quoted at h
  generalize hquote : (if quoted = true then 1 else 0) = quote at h
  generalize hnamed : (cs.dropWhile isIndent).drop quote = named at h
  have hcs := congrArg List.length (List.takeWhile_append_dropWhile (p := isIndent) (l := cs))
  have hlen := congrArg List.length hnamed
  have hsize := nameLength_le named
  rw [List.length_append] at hcs
  rw [List.length_drop] at hlen
  split at h
  · cases h
  next hname =>
  split at h
  · cases h
  next hopen =>
    obtain ⟨body, hbody, rfl⟩ := Option.map_eq_some_iff.1 (Except.ok.inj h)
    have hle := le_of_bodyLength?_eq_some hbody
    -- a quoted label is followed by something, so that the second quote is there to be skipped
    have hroom : quote ≤ (named.drop (nameLength named)).length := by
      cases quoted with
      | false => simp [← hquote]
      | true =>
        rw [← hquote, if_pos rfl]
        exact List.length_pos_iff.2 fun hnil => hopen (by rw [hnil]; rfl)
    have hpos : nameLength named ≠ 0 := by simpa using hname
    simp only [List.length_drop] at hle hroom
    omega

end Heredoc

/-- The lexeme takes something, and no more than `n` characters. -/
def Lexeme.Within (found : Lexeme) (n : Nat) : Prop :=
  0 < found.length ∧ found.length ≤ n

theorem quotedLexeme_within (kind : Kind) (quote : Char) (rest : List Char) :
    (quotedLexeme kind quote rest).Within (rest.length + 1) := by
  unfold quotedLexeme
  split
  next n h =>
    have := le_of_quotedLength?_eq_some h
    exact ⟨by simp only; omega, by simp only; omega⟩
  next => exact ⟨by simp only; omega, by simp only; omega⟩

theorem operators_ne_nil : ∀ op ∈ operators, op.1.toList ≠ [] := by decide +kernel

/-- What is read as an operator is one of the table, spelled out in front. -/
theorem exists_of_operatorAt?_eq_some {found : Lexeme} (h : operatorAt? cs = some found) :
    ∃ op ∈ operators, op.1.toList <+: cs ∧ found = ⟨op.2, op.1.length, .code⟩ := by
  obtain ⟨op, hop, rfl⟩ := Option.map_eq_some_iff.1 h
  have hpre : op.1.toList.isPrefixOf cs = true :=
    List.find?_some (p := fun op : String × Kind => op.1.toList.isPrefixOf cs) hop
  exact ⟨op, List.mem_of_find?_eq_some hop, List.isPrefixOf_iff_prefix.1 hpre, rfl⟩

theorem operatorAt?_within {found : Lexeme} (h : operatorAt? cs = some found) :
    found.Within cs.length := by
  obtain ⟨op, hmem, hpre, rfl⟩ := exists_of_operatorAt?_eq_some h
  rw [← String.length_toList] at *
  exact ⟨List.length_pos_iff.2 (operators_ne_nil op hmem), hpre.length_le⟩

theorem lineCommentLength_pos (h : (c == '#' || (c == '/' && rest.head? == some '/')) = true) :
    0 < lineCommentLength (c :: rest) := by
  have hc : c ≠ '\n' ∧ c ≠ '?' := by
    constructor <;> rintro rfl <;> simp at h
  rw [lineCommentLength.eq_4 _ _ hc.1 fun _ h _ => hc.2 h]
  omega

theorem qualifiedLength_pos
    (h : (isNameStart c || (c == '\\' && rest.head?.any isNameStart)) = true) :
    0 < qualifiedLength (c :: rest) := by
  cases rest with
  | nil =>
    have hc : isNameStart c = true := by simpa using h
    simp [qualifiedLength, isNamePart_of_isNameStart hc]
  | cons d rest =>
    have hc : (isNamePart c || (c == '\\' && isNameStart d)) = true := by
      rcases Bool.or_eq_true_iff.1 h with hc | hc
      · simp [isNamePart_of_isNameStart hc]
      · exact Bool.or_eq_true_iff.2 (.inr (by simpa using hc))
    rw [qualifiedLength, if_pos hc]
    omega

theorem plainLexeme_within (c : Char) (rest : List Char) :
    (plainLexeme c rest).Within (rest.length + 1) := by
  unfold plainLexeme
  dsimp only
  split
  · exact quotedLexeme_within ..
  split
  next h => exact ⟨lineCommentLength_pos h, lineCommentLength_le (c :: rest)⟩
  split
  next h =>
    have hrest : rest ≠ [] := by rintro rfl; simp at h
    have := blockCommentLength_le (rest.drop 1)
    have := List.length_pos_iff.2 hrest
    rw [List.length_drop] at *
    exact ⟨by simp only; omega, by simp only; omega⟩
  split
  next h =>
    have := nameLength_le rest
    split <;> exact ⟨by simp only; omega, by simp only; omega⟩
  split
  · exact quotedLexeme_within ..
  split
  next h => exact ⟨number_length_pos h, number_length_le (c :: rest)⟩
  split
  next h => exact ⟨qualifiedLength_pos h, qualifiedLength_le (c :: rest)⟩
  next =>
    cases hop : operatorAt? (c :: rest) with
    | none => exact ⟨Nat.one_pos, by simp⟩
    | some found => exact operatorAt?_within hop

theorem codeLexeme_within {found : Lexeme} (h : codeLexeme c rest = .ok found) :
    found.Within (rest.length + 1) := by
  unfold codeLexeme at h
  dsimp only at h
  split at h
  next hclose =>
    cases h
    cases rest with
    | nil => simp at hclose
    | cons d rest =>
      refine ⟨by simp only; split <;> omega, ?_⟩
      cases rest <;> simp
      split <;> omega
  split at h
  next hblank =>
    cases h
    exact ⟨length_takeWhile_pos hblank, length_takeWhile_le _ (c :: rest)⟩
  split at h
  next =>
    cases h
    have := bracketedLength_le 0 rest
    exact ⟨by simp only; omega, by simp only; omega⟩
  split at h
  next hopen =>
    split at h
    · cases h
    next n hn =>
      cases h
      have := Heredoc.le_of_lengthAfter?_eq_ok_some hn
      have := (List.isPrefixOf_iff_prefix.1 hopen).length_le
      simp only [List.length_drop, List.length_cons, List.length_nil] at *
      exact ⟨by simp only; omega, by simp only; omega⟩
    · cases h
      exact plainLexeme_within ..
  next =>
    cases h
    exact plainLexeme_within ..

theorem markupLexeme_within (c : Char) (rest : List Char) :
    (markupLexeme c rest).Within (rest.length + 1) := by
  unfold markupLexeme
  dsimp only
  split
  next h => exact ⟨by simp, five_le_length_of_isOpenTag h⟩
  next h =>
    refine ⟨?_, markupLength_le (c :: rest)⟩
    simp only [markupLength, if_neg h]
    omega

/-- In either mode and whatever stands there, a lexeme takes its first character and stays within
the text. -/
theorem lexeme_within {mode : Mode} {found : Lexeme} (h : lexeme mode c rest = .ok found) :
    found.Within (rest.length + 1) := by
  cases mode with
  | markup =>
    cases h
    exact markupLexeme_within c rest
  | code => exact codeLexeme_within h

end PhpLint.Token
