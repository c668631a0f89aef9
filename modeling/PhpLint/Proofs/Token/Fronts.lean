import Mathlib.Data.List.Induction
import PhpLint.Proofs.Token.Measures

/-! Many classes of lexemes look beyond their own end to find it; what they then cut off is
nevertheless a lexeme of the same kind and length with nothing behind it. Each measure has a lemma
for this, in which `front` is what was taken and `behind` what was left. A base prefix without
digits is what no such lemma covers: it is taken for a number only where something follows it. -/

namespace PhpLint.Token

variable {c quote : Char} {front behind label : List Char} {n depth : Nat} {kind : Kind}

theorem length_takeWhile_front {p : Char → Bool} (front : List Char)
    (h : ((front ++ behind).takeWhile p).length ≤ front.length) :
    (front.takeWhile p).length = ((front ++ behind).takeWhile p).length := by
  rw [List.takeWhile_append] at h ⊢
  split at h
  next hall =>
    rw [if_pos hall, List.length_append] at *
    omega
  next hall => rw [if_neg hall]

theorem nameLength_front (front : List Char)
    (h : nameLength (front ++ behind) ≤ front.length) :
    nameLength front = nameLength (front ++ behind) := by
  cases front with
  | nil => exact (Nat.le_zero.1 h).symm
  | cons d front =>
    simp only [nameLength, List.cons_append] at h ⊢
    split
    next hd =>
      rw [if_pos hd] at h
      exact length_takeWhile_front (d :: front) h
    next => rfl

theorem lineCommentLength_front (front : List Char)
    (h : lineCommentLength (front ++ behind) = front.length) :
    lineCommentLength front = front.length := by
  induction front with
  | nil => rfl
  | cons d front ih =>
    have hd : d ≠ '\n' := by
      rintro rfl
      simp [lineCommentLength] at h
    have hclose : ∀ cs, d :: (front ++ behind) ≠ '?' :: '>' :: cs := by
      intro cs hcs
      rw [List.cons_append, hcs, lineCommentLength] at h
      simp at h
    rw [List.cons_append, lineCommentLength.eq_4 _ _ hd fun cs h1 h2 => hclose cs (by rw [h1, h2]),
      List.length_cons] at h
    rw [lineCommentLength.eq_4 _ _ hd fun cs h1 h2 => hclose (cs ++ behind) (by rw [h1, h2]; rfl),
      ih (by omega), List.length_cons, Nat.add_comm]

theorem blockCommentLength_front (h : blockCommentLength (front ++ behind) = front.length) :
    blockCommentLength front = front.length := by
  induction front with
  | nil => rfl
  | cons d front ih =>
    by_cases hclose : ∃ cs, d :: front = '*' :: '/' :: cs
    · obtain ⟨cs, hcs⟩ := hclose
      rw [hcs] at h ⊢
      exact h
    · by_cases hlast : ∃ cs, d :: (front ++ behind) = '*' :: '/' :: cs
      · -- the slash of the end stands behind, so that the comment is longer than `front`
        obtain ⟨cs, hcs⟩ := hlast
        cases front with
        | nil => rw [List.cons_append, List.nil_append, ← List.nil_append behind, hcs,
            blockCommentLength] at h; simp at h
        | cons e front =>
          rw [List.cons_append, List.cons.injEq, List.cons.injEq] at hcs
          exact absurd ⟨front, by rw [hcs.1, hcs.2.1]⟩ hclose
      · rw [List.cons_append, blockCommentLength.eq_3 _ _
          fun cs h1 h2 => hlast ⟨cs, by rw [h1, h2]⟩, List.length_cons] at h
        rw [blockCommentLength.eq_3 _ _ fun cs h1 h2 => hclose ⟨cs, by rw [h1, h2]⟩,
          ih (by omega), List.length_cons, Nat.add_comm]

theorem bracketedLength_front (h : bracketedLength depth (front ++ behind) = front.length) :
    bracketedLength depth front = front.length := by
  induction front generalizing depth with
  | nil => rfl
  | cons d front ih =>
    rw [List.cons_append, bracketedLength] at h
    rw [bracketedLength]
    rw [List.length_cons] at h ⊢
    split at h
    next hopen => rw [if_pos hopen, ih (by omega)]; omega
    next hopen =>
    rw [if_neg hopen]
    split at h
    next hclose =>
      rw [if_pos hclose]
      split at h
      next hdepth => rw [if_pos hdepth]; omega
      next hdepth => rw [if_neg hdepth, ih (by omega)]; omega
    next hclose => rw [if_neg hclose, ih (by omega)]; omega

theorem quotedLength?_front (h : quotedLength? quote (front ++ behind) = some front.length) :
    quotedLength? quote front = some front.length := by
  have hplain : ∀ d cs, d ≠ '\\' →
      (quotedLength? quote (cs ++ behind) = some cs.length →
        quotedLength? quote cs = some cs.length) →
      quotedLength? quote (d :: cs ++ behind) = some (d :: cs).length →
      quotedLength? quote (d :: cs) = some (d :: cs).length := by
    intro d cs hd ih h
    rw [List.cons_append, quotedLength?_cons hd] at h
    rw [quotedLength?_cons hd]
    split at h
    next hquote => rw [if_pos hquote, h]
    next hquote =>
      rw [List.length_cons, Option.map_eq_some_iff] at h
      obtain ⟨n, hn, hlen⟩ := h
      rw [if_neg hquote, ih (hn.trans (congrArg some (Nat.succ.inj hlen))), List.length_cons]
      rfl
  induction front using List.twoStepInduction with
  | nil => exact absurd (quotedLength?_pos h) (Nat.lt_irrefl 0)
  | singleton d =>
    by_cases hd : d = '\\'
    · -- the backslash takes one character with it from behind, if there is one
      subst hd
      cases behind with
      | nil => cases h
      | cons e behind => simp [quotedLength?] at h
    · exact hplain d [] hd (fun h => absurd (quotedLength?_pos h) (Nat.lt_irrefl 0)) h
  | cons_cons d e cs ih ihtail =>
    by_cases hd : d = '\\'
    · subst hd
      simp only [List.cons_append, quotedLength?, List.length_cons, Option.map_eq_some_iff,
        Nat.add_right_cancel_iff, exists_eq_right] at h
      rw [quotedLength?, ih h]
      rfl
    · exact hplain d (e :: cs) hd (ihtail e) h

theorem qualifiedLength_front (front : List Char)
    (h : qualifiedLength (front ++ behind) = front.length) :
    qualifiedLength front = front.length := by
  have hname : ∀ d cs, isNameStart d = true → qualifiedLength (d :: cs) ≠ 0 := fun d cs hd =>
    Nat.ne_of_gt (qualifiedLength_pos (by simp [hd]))
  induction front with
  | nil => rfl
  | cons d front ih =>
    cases front with
    | nil =>
      cases behind with
      | nil => exact h
      | cons e behind =>
        simp only [List.cons_append, List.nil_append, qualifiedLength, List.length_singleton] at h
        split at h
        next hd =>
          have hpart : isNamePart d = true := by
            rcases Bool.or_eq_true_iff.1 hd with hd | hd
            · exact hd
            · simp only [Bool.and_eq_true] at hd
              exact absurd (by omega) (hname e behind hd.2)
          simp [qualifiedLength, hpart]
        next => cases h
    | cons e front =>
      simp only [List.cons_append, qualifiedLength, List.length_cons] at h ih ⊢
      split at h
      next hd => rw [if_pos hd, ih (by omega)]; omega
      next => cases h

/-! Numbers, part by part. -/

theorem digitsLength_front (front : List Char)
    (h : digitsLength (front ++ behind) ≤ front.length) :
    digitsLength front = digitsLength (front ++ behind) :=
  length_takeWhile_front front h

theorem fractionLength_front (front : List Char)
    (h : fractionLength (front ++ behind) ≤ front.length) :
    fractionLength front = fractionLength (front ++ behind) := by
  rcases front with _ | ⟨d, _ | ⟨e, front⟩⟩
  · exact (Nat.le_zero.1 h).symm
  · rw [fractionLength_singleton]
    cases behind with
    | nil => exact (fractionLength_singleton d).symm
    | cons e behind =>
      rw [List.cons_append, List.nil_append, fractionLength_cons_cons] at h ⊢
      split at h
      next hpoint =>
        have : 0 < digitsLength (e :: behind) := digitsLength_pos hpoint.2
        rw [List.length_singleton] at h
        omega
      next hpoint => rw [if_neg hpoint]
  · simp only [List.cons_append, fractionLength_cons_cons, List.length_cons] at h ⊢
    split at h
    next hpoint =>
      have hdigits : digitsLength (e :: front ++ behind) ≤ (e :: front).length := by
        simp only [List.cons_append, List.length_cons]
        omega
      rw [if_pos hpoint, if_pos hpoint, digitsLength_front _ hdigits, List.cons_append]
    next hpoint => rw [if_neg hpoint, if_neg hpoint]

theorem exponentLength_front (front : List Char)
    (h : exponentLength (front ++ behind) ≤ front.length) :
    exponentLength front = exponentLength (front ++ behind) := by
  rcases front with _ | ⟨e, front⟩
  · exact (Nat.le_zero.1 h).symm
  rw [List.cons_append, exponentLength_cons, List.length_cons] at h
  rw [List.cons_append, exponentLength_cons, exponentLength_cons]
  by_cases he : e = 'e' ∨ e = 'E'
  · cases front with
    | nil =>
      split at h
      next => simp only [List.length_nil] at h; omega
      next hdigits =>
        rw [if_neg (by simp [digitsLength])]
        exact (if_neg hdigits).symm
    | cons d front =>
      -- `front` goes on, so it is there that the sign is looked for
      have hsign : signLength (d :: front ++ behind) = signLength (d :: front) := rfl
      have hsingle : signLength (d :: front) ≤ (d :: front).length :=
        Nat.le_trans (signLength_le_one _) (by simp)
      rw [hsign, List.drop_append_of_le_length hsingle] at h ⊢
      have hdigits : digitsLength ((d :: front).drop (signLength (d :: front)) ++ behind) ≤
          ((d :: front).drop (signLength (d :: front))).length := by
        rw [List.length_drop]
        split at h
        next => omega
        next hnone => have := not_and.1 hnone he; omega
      rw [digitsLength_front _ hdigits]
  · rw [if_neg fun h => he h.1, if_neg fun h => he h.1]

/-- A base prefix and no digit after it. -/
def IsBareBase (cs : List Char) : Prop := ∃ b ∈ ['x', 'X', 'b', 'B', 'o', 'O'], cs = ['0', b]

instance : DecidablePred IsBareBase := fun cs =>
  List.decidableBEx (fun b => cs = ['0', b]) ['x', 'X', 'b', 'B', 'o', 'O']

theorem isBasePrefix_append (h : isBasePrefix front = true) :
    isBasePrefix (front ++ behind) = true := by
  unfold isBasePrefix at h
  split at h
  · exact h
  · cases h

theorem number_front (front : List Char) (hbase : ¬ IsBareBase front)
    (h : (number (front ++ behind)).2 = front.length) :
    number front = number (front ++ behind) := by
  by_cases hprefix : isBasePrefix (front ++ behind) = true
  · obtain ⟨b, hb, after, -, hafter⟩ := exists_of_isBasePrefix hprefix
    rw [number, if_pos hprefix] at h
    rcases front with _ | ⟨z, _ | ⟨d, _ | ⟨e, front⟩⟩⟩
    · simp only [List.length_nil] at h
      omega
    · simp only [List.length_cons, List.length_nil] at h
      omega
    · cases hafter
      exact absurd ⟨b, hb, rfl⟩ hbase
    · cases hafter
      have hfront : isBasePrefix ('0' :: b :: e :: front) = true := hprefix
      have hdigits := length_takeWhile_front (p := isHexPart) (e :: front)
        (by simpa [Nat.add_comm 2] using Nat.le_of_eq h)
      rw [number, number, if_pos hprefix, if_pos hfront]
      exact congrArg (fun n => (Kind.intNumber, 2 + n)) hdigits
  · have hfront : ¬ isBasePrefix front = true := fun hfront =>
      hprefix (isBasePrefix_append hfront)
    rw [number, if_neg hprefix] at h
    rw [number, if_neg hfront, number, if_neg hprefix]
    dsimp only at h ⊢
    have hwhole : digitsLength front = digitsLength (front ++ behind) :=
      digitsLength_front front (by omega)
    have hle := digitsLength_le front
    rw [← hwhole, List.drop_append_of_le_length hle] at h ⊢
    have hrest : fractionLength (front.drop (digitsLength front) ++ behind) ≤
        (front.drop (digitsLength front)).length := by
      rw [List.length_drop]
      omega
    have hfraction := fractionLength_front _ hrest
    have hfractionle := fractionLength_le (front.drop (digitsLength front))
    rw [List.length_drop] at hfractionle
    rw [← hfraction, List.drop_append_of_le_length (by omega)] at h ⊢
    generalize fractionLength (front.drop (digitsLength front)) = fraction at *
    have hexponent : exponentLength (front.drop (digitsLength front + fraction) ++ behind) ≤
        (front.drop (digitsLength front + fraction)).length := by
      rw [List.length_drop]
      omega
    rw [exponentLength_front _ hexponent]

namespace Heredoc

theorem dropWhile_front {p : Char → Bool}
    (h : ((front ++ behind).takeWhile p).length ≤ front.length) :
    (front ++ behind).dropWhile p = front.dropWhile p ++ behind := by
  have hlen := length_takeWhile_front front h
  rw [← drop_length_takeWhile, ← drop_length_takeWhile, ← hlen, List.drop_append_of_le_length]
  rwa [hlen]

theorem markerLength?_front (h : markerLength? label (front ++ behind) = some front.length) :
    markerLength? label front = some front.length := by
  obtain ⟨after, hafter, -, hlen⟩ := markerLength?_eq_some_iff.1 h
  have hle : ((front ++ behind).takeWhile isIndent).length ≤ front.length := by omega
  rw [dropWhile_front hle] at hafter
  have hsplit := congrArg List.length (List.takeWhile_append_dropWhile (p := isIndent) (l := front))
  rw [List.length_append, length_takeWhile_front front hle] at hsplit
  have hlabel : front.dropWhile isIndent = label :=
    (List.append_inj hafter (by omega)).1
  refine markerLength?_eq_some_iff.2 ⟨[], by rw [hlabel, List.append_nil], rfl, ?_⟩
  rw [length_takeWhile_front front hle, hlen]

/-- A line that is no closing one is none either where the text ends behind it. -/
theorem markerLength?_eq_none_front (hlabel : ∀ c ∈ label, isNamePart c = true)
    (hline : '\n' ∈ front) (h : markerLength? label (front ++ behind) = none) :
    markerLength? label front = none := by
  rw [Option.eq_none_iff_forall_ne_some] at h ⊢
  intro n hn
  obtain ⟨after, hafter, hnone, rfl⟩ := markerLength?_eq_some_iff.1 hn
  have hsplit := List.takeWhile_append_dropWhile (p := isIndent) (l := front)
  -- the end of the line stands behind the label, so that there is something to look at there
  obtain ⟨x, xs, rfl⟩ : ∃ x xs, after = x :: xs := by
    refine List.exists_cons_of_ne_nil ?_
    rintro rfl
    rw [← hsplit, hafter, List.append_nil, List.mem_append] at hline
    rcases hline with hline | hline
    · have := List.all_eq_true.1 List.all_takeWhile _ hline
      cases this
    · have := hlabel _ hline
      cases this
  have hle : ((front ++ behind).takeWhile isIndent).length ≤ front.length := by
    rw [List.takeWhile_append]
    split
    next hall =>
      have hlen := congrArg List.length hsplit
      rw [hafter, List.length_append, List.length_append, List.length_cons] at hlen
      omega
    next => exact length_takeWhile_le ..
  refine h _ (markerLength?_eq_some_iff.2 ⟨x :: xs ++ behind, ?_, hnone, rfl⟩)
  rw [dropWhile_front hle, hafter, List.append_assoc]

theorem bodyLength?_front (hlabel : ∀ c ∈ label, isNamePart c = true)
    (h : bodyLength? label (front ++ behind) = some front.length) :
    bodyLength? label front = some front.length := by
  induction front with
  | nil => exact absurd (newline_of_bodyLength? h) (by simp)
  | cons d front ih =>
    rw [List.cons_append] at h
    obtain ⟨m, hm, hbody⟩ := bodyLength?_cons_eq_some_iff.1 h
    obtain rfl : front.length = m := Nat.succ.inj hm
    refine bodyLength?_cons_eq_some_iff.2 ⟨front.length, rfl, ?_⟩
    rcases hbody with ⟨hd, hend⟩ | ⟨hd, hlater⟩
    · exact .inl ⟨hd, markerLength?_front hend⟩
    · have hline := newline_of_bodyLength? hlater
      rw [List.take_left] at hline
      exact .inr ⟨fun hnew => markerLength?_eq_none_front hlabel hline (hd hnew), ih hlater⟩

theorem quoteLength_front (h : front ≠ []) : quoteLength (front ++ behind) = quoteLength front := by
  rw [quoteLength, quoteLength, List.head?_append_of_ne_nil _ h]

theorem lengthAfter?_front (h : lengthAfter? (front ++ behind) = .ok (some (front.length + 3))) :
    lengthAfter? front = .ok (some (front.length + 3)) := by
  obtain ⟨hsize, hroom, m, hbody, hlen⟩ := lengthAfter?_eq_some_iff.1 h
  have hblanks : ((front ++ behind).takeWhile isIndent).length ≤ front.length := by omega
  rw [dropWhile_front hblanks] at hsize hroom hbody hlen
  have hsplit := congrArg List.length (List.takeWhile_append_dropWhile (p := isIndent) (l := front))
  rw [List.length_append, length_takeWhile_front front hblanks] at hsplit
  have hhead : front.dropWhile isIndent ≠ [] := fun hnil => by
    rw [hnil, List.length_nil] at hsplit
    omega
  rw [quoteLength_front hhead] at hsize hroom hbody hlen
  refine lengthAfter?_eq_some_iff.2 ?_
  rw [length_takeWhile_front front hblanks]
  generalize front.dropWhile isIndent = head at *
  generalize quoteLength head = quote at *
  generalize ((front ++ behind).takeWhile isIndent).length = blanks at *
  rw [List.drop_append_of_le_length (by omega)] at hsize hroom hbody hlen
  have hnamefits : nameLength (head.drop quote ++ behind) ≤ (head.drop quote).length := by
    rw [List.length_drop]
    omega
  have hname := nameLength_front _ hnamefits
  rw [← hname] at hsize hroom hbody hlen
  dsimp only
  have hnamele := nameLength_le (head.drop quote)
  have hafter : quote ≤ ((head.drop quote).drop (nameLength (head.drop quote))).length := by
    simp only [List.length_drop] at *
    omega
  rw [List.take_append_of_le_length hnamele, List.drop_append_of_le_length hnamele,
    List.drop_append_of_le_length hafter] at hbody
  obtain rfl : m = (((head.drop quote).drop (nameLength (head.drop quote))).drop quote).length := by
    simp only [List.length_drop] at *
    omega
  exact ⟨hsize, hafter, _, bodyLength?_front (isNamePart_of_mem_take_nameLength _) hbody, hlen⟩

end Heredoc

/-! Four classes are told by their first two characters, and take both. -/

section TwoCharacters

variable {rest : List Char}

theorem two_le_lineCommentLength (h : rest.head? = some '/') :
    2 ≤ lineCommentLength ('/' :: rest) := by
  obtain ⟨after, rfl⟩ := List.head?_eq_some_iff.1 h
  have hslash : ∀ cs, lineCommentLength ('/' :: cs) = 1 + lineCommentLength cs := fun cs =>
    lineCommentLength.eq_4 '/' cs (by decide) fun _ h _ => absurd h (by decide)
  rw [hslash, hslash]
  omega

theorem two_le_number (h : rest.head?.any Char.isDigit = true) :
    2 ≤ (number ('.' :: rest)).2 := by
  obtain ⟨d, hhead, hd⟩ := (Option.any_eq_true _ _).1 h
  obtain ⟨after, rfl⟩ := List.head?_eq_some_iff.1 hhead
  have hwhole : digitsLength ('.' :: d :: after) = 0 := rfl
  have hdigits : 0 < digitsLength (d :: after) := digitsLength_pos hd
  have hprefix : isBasePrefix ('.' :: d :: after) = false := by
    unfold isBasePrefix
    split
    next heq => cases heq
    next => rfl
  simp only [number, hprefix, hwhole, List.drop_zero, fractionLength, hd, if_true,
    Bool.false_eq_true, if_false]
  omega

theorem two_le_qualifiedLength (h : rest.head?.any isNameStart = true) :
    2 ≤ qualifiedLength ('\\' :: rest) := by
  obtain ⟨d, hhead, hd⟩ := (Option.any_eq_true _ _).1 h
  obtain ⟨after, rfl⟩ := List.head?_eq_some_iff.1 hhead
  have hname : 0 < qualifiedLength (d :: after) := qualifiedLength_pos (by simp [hd])
  rw [qualifiedLength, if_pos (by simp [hd])]
  omega

end TwoCharacters

/-! Lexemes. -/

theorem quotedLexeme_front (hkind : (quotedLexeme kind quote (front ++ behind)).kind ≠ .errorToken)
    (h : (quotedLexeme kind quote (front ++ behind)).length = front.length + 1) :
    quotedLexeme kind quote front = quotedLexeme kind quote (front ++ behind) := by
  unfold quotedLexeme at *
  split at h
  next n hn =>
    simp only at h
    obtain rfl : n = front.length := by omega
    rw [quotedLength?_front hn]
  next hnone =>
    rw [hnone] at hkind
    exact absurd rfl hkind

theorem operatorAt?_front
    (hkind : ((operatorAt? (c :: (front ++ behind))).getD ⟨.errorToken, 1, .code⟩).kind ≠
      .errorToken)
    (h : ((operatorAt? (c :: (front ++ behind))).getD ⟨.errorToken, 1, .code⟩).length =
      front.length + 1) :
    ∃ op ∈ operators, op.1.toList = c :: front ∧
      (operatorAt? (c :: (front ++ behind))).getD ⟨.errorToken, 1, .code⟩ =
        ⟨op.2, op.1.length, .code⟩ := by
  cases hop : operatorAt? (c :: (front ++ behind)) with
  | none =>
    rw [hop] at hkind
    exact absurd rfl hkind
  | some found =>
    obtain ⟨op, hmem, hpre, rfl⟩ := exists_of_operatorAt?_eq_some hop
    rw [hop] at h
    have hlen : op.1.length = (c :: front).length := h
    refine ⟨op, hmem, ?_, rfl⟩
    rw [List.prefix_iff_eq_take.1 hpre, String.length_toList, hlen, ← List.cons_append,
      List.take_left]

/-- The front of a lexeme alone is that lexeme, or an operator. -/
theorem plainLexeme_front (hbase : ¬ IsBareBase (c :: front))
    (hkind : (plainLexeme c (front ++ behind)).kind ≠ .errorToken)
    (h : (plainLexeme c (front ++ behind)).length = front.length + 1) :
    plainLexeme c front = plainLexeme c (front ++ behind) ∨
      ∃ op ∈ operators, op.1.toList = c :: front ∧
        plainLexeme c (front ++ behind) = ⟨op.2, op.1.length, .code⟩ := by
  have hplain := plain_plainLexeme c (front ++ behind)
  generalize plainLexeme c (front ++ behind) = found at *
  -- a lexeme of two characters or more has the second one in front
  have hhead : 2 ≤ found.length → (front ++ behind).head? = front.head? := fun hlen => by
    refine List.head?_append_of_ne_nil _ ?_
    rintro rfl
    simp only [List.length_nil] at h
    omega
  cases hplain with
  | shell hc =>
    rw [← quotedLexeme_front hkind h]
    exact .inl (Plain.shell hc).eq
  | lineComment hc =>
    have hfront : c = '#' ∨ c = '/' ∧ front.head? = some '/' := by
      refine hc.imp_right fun ⟨hslash, hnext⟩ => ⟨hslash, ?_⟩
      rwa [← hhead (hslash ▸ two_le_lineCommentLength hnext)]
    have hlen : lineCommentLength (c :: (front ++ behind)) = (c :: front).length := h
    have hline := lineCommentLength_front (c :: front) hlen
    rw [hlen, ← hline]
    exact .inl (Plain.lineComment hfront).eq
  | blockComment hc =>
    rw [hhead (Nat.le_add_right 2 _)] at hc
    obtain ⟨after, rfl⟩ := List.head?_eq_some_iff.1 hc.2
    have hlen : blockCommentLength (after ++ behind) = after.length := by
      simp only [List.cons_append, List.drop_succ_cons, List.drop_zero, List.length_cons] at h
      omega
    have hblock : plainLexeme c ('*' :: after) = _ := Plain.eq (.blockComment hc)
    rw [List.drop_succ_cons, List.drop_zero, blockCommentLength_front hlen] at hblock
    rw [List.cons_append, List.drop_succ_cons, List.drop_zero, hlen]
    exact .inl hblock
  | dollar hc hname =>
    obtain rfl : front = [] := List.eq_nil_of_length_eq_zero (by simpa using h.symm)
    exact .inl (Plain.dollar hc rfl).eq
  | varName hc hname =>
    have hlen : nameLength (front ++ behind) ≤ front.length := by
      simp only at h
      omega
    rw [← nameLength_front front hlen] at hname ⊢
    exact .inl (Plain.varName hc hname).eq
  | string hc =>
    rw [← quotedLexeme_front hkind h]
    exact .inl (Plain.string hc).eq
  | number hc =>
    have hfront : c.isDigit = true ∨ c = '.' ∧ front.head?.any Char.isDigit = true := by
      refine hc.imp_right fun ⟨hpoint, hnext⟩ => ⟨hpoint, ?_⟩
      rwa [← hhead (hpoint ▸ two_le_number hnext)]
    have hnumber := Plain.eq (.number hfront)
    rw [number_front (c :: front) hbase h] at hnumber
    exact .inl hnumber
  | name hc =>
    have hfront : isNameStart c = true ∨ c = '\\' ∧ front.head?.any isNameStart = true := by
      refine hc.imp_right fun ⟨hseparator, hnext⟩ => ⟨hseparator, ?_⟩
      rwa [← hhead (hseparator ▸ two_le_qualifiedLength hnext)]
    have hname := Plain.eq (.name hfront)
    have hlen : qualifiedLength (c :: (front ++ behind)) = (c :: front).length := h
    have htake : (c :: (front ++ behind)).take (c :: front).length = c :: front := by
      rw [← List.cons_append, List.take_left]
    rw [qualifiedLength_front (c :: front) hlen, List.take_length] at hname
    rw [hlen, htake]
    exact .inl hname
  | other hfound => exact .inr (operatorAt?_front hkind h)

/-- Each operator is a lexeme alone, and no heredoc begins with it. -/
theorem codeLexeme_of_mem_operators : ∀ op ∈ operators,
    codeLexeme (op.1.toList.headD 'x') op.1.toList.tail = .ok ⟨op.2, op.1.length, .code⟩ := by
  decide +kernel

/-- The operator alone, which no heredoc begins with. -/
theorem codeLexeme_of_operator {op : String × Kind} (hmem : op ∈ operators)
    (htext : op.1.toList = c :: front) : codeLexeme c front = .ok ⟨op.2, op.1.length, .code⟩ := by
  have h := codeLexeme_of_mem_operators op hmem
  rwa [htext] at h

theorem codeLexeme_front_of_plain (hbase : ¬ IsBareBase (c :: front))
    (hkind : (plainLexeme c (front ++ behind)).kind ≠ .errorToken)
    (h : (plainLexeme c (front ++ behind)).length = front.length + 1)
    (hclose : ¬ (c = '?' ∧ (front ++ behind).head? = some '>'))
    (hblank : Text.isBlank c = false)
    (hattribute : ¬ (c = '#' ∧ (front ++ behind).head? = some '[')) :
    codeLexeme c front = .ok (plainLexeme c (front ++ behind)) := by
  have hmono : ∀ d, front.head? = some d → (front ++ behind).head? = some d := fun d hd => by
    obtain ⟨after, rfl⟩ := List.head?_eq_some_iff.1 hd
    rfl
  by_cases hc : c = '<'
  · have hplain : plainLexeme c (front ++ behind) =
        (operatorAt? (c :: (front ++ behind))).getD ⟨.errorToken, 1, .code⟩ := by
      subst hc
      simp [plainLexeme, isNameStart]
    rw [hplain] at hkind h ⊢
    obtain ⟨op, hmem, htext, hop⟩ := operatorAt?_front hkind h
    rw [hop]
    exact codeLexeme_of_operator hmem htext
  · rcases plainLexeme_front hbase hkind h with hplain | ⟨op, hmem, htext, hop⟩
    · rw [← hplain]
      refine codeLexeme_eq_plainLexeme (fun h => hclose ⟨h.1, hmono _ h.2⟩) hblank
        (fun h => hattribute ⟨h.1, hmono _ h.2⟩) fun h => hc ?_
      exact (List.cons_prefix_cons.1 h).1.symm
    · rw [hop]
      exact codeLexeme_of_operator hmem htext

/-- What is cut off is the same lexeme with nothing behind it. -/
theorem codeLexeme_front {found : Lexeme} (hbase : ¬ IsBareBase (c :: front))
    (hfound : codeLexeme c (front ++ behind) = .ok found) (hkind : found.kind ≠ .errorToken)
    (h : found.length = front.length + 1) : codeLexeme c front = .ok found := by
  unfold codeLexeme at hfound
  dsimp only at hfound
  split at hfound
  next hclose =>
    cases hfound
    simp only [Bool.and_eq_true, beq_iff_eq] at hclose
    obtain ⟨rfl, hnext⟩ := hclose
    rcases front with _ | ⟨d, _ | ⟨e, front⟩⟩
    · simp only [List.length_nil] at h
      split at h <;> cases h
    · obtain rfl : d = '>' := by simpa using hnext
      simp only [List.length_cons, List.length_nil, List.cons_append, List.nil_append,
        List.drop_succ_cons, List.drop_zero] at h ⊢
      split at h
      next => cases h
      next hnew => rw [codeLexeme_of_closeTag, if_neg hnew]; rfl
    · obtain rfl : d = '>' := by simpa using hnext
      rw [codeLexeme_of_closeTag]
      rfl
  next hclose =>
  split at hfound
  next hblank =>
    cases hfound
    have hlen := length_takeWhile_front (c :: front) (Nat.le_of_eq h)
    rw [codeLexeme_of_isBlank hblank, hlen]
    rfl
  next hblank =>
  split at hfound
  next hattribute =>
    cases hfound
    simp only [Bool.and_eq_true, beq_iff_eq] at hattribute
    obtain ⟨rfl, hnext⟩ := hattribute
    have hlen : bracketedLength 0 (front ++ behind) = front.length := by
      simp only at h
      omega
    cases front with
    | nil =>
      obtain ⟨after, hafter⟩ := List.head?_eq_some_iff.1 hnext
      rw [hafter, bracketedLength, if_pos (beq_self_eq_true '['), List.length_nil] at hlen
      omega
    | cons d front =>
      obtain rfl : d = '[' := by simpa using hnext
      rw [codeLexeme_of_attribute, hlen, bracketedLength_front hlen]
  next hattribute =>
  have hplain : plainLexeme c (front ++ behind) = found → codeLexeme c front = .ok found := by
    rintro rfl
    exact codeLexeme_front_of_plain hbase hkind h (by simpa using hclose) (by simpa using hblank)
      (by simpa using hattribute)
  split at hfound
  next hopen =>
    split at hfound
    next => cases hfound
    next n hn =>
      cases hfound
      have hsize : 3 < n := by
        obtain ⟨hsize, -, m, -, rfl⟩ := Heredoc.lengthAfter?_eq_some_iff.1 hn
        omega
      obtain rfl : n = front.length + 1 := h
      rcases front with _ | ⟨d, _ | ⟨e, front⟩⟩
      · simp only [List.length_nil] at hsize
        omega
      · simp only [List.length_cons, List.length_nil] at hsize
        omega
      · simp only [List.isPrefixOf_iff_prefix, List.cons_append, List.cons_prefix_cons] at hopen
        obtain ⟨rfl, rfl, rfl, -⟩ := hopen
        exact codeLexeme_of_heredoc (Heredoc.lengthAfter?_front hn)
    next => exact hplain (Except.ok.inj hfound)
  next => exact hplain (Except.ok.inj hfound)

end PhpLint.Token
