import PhpLint.Proofs.Text.Lower
import PhpLint.Proofs.Token.Offsets

/-! The scan by byte offsets is the scan by characters, and goes wrong where that one fails: at a
heredoc label whose quote nothing closes, where the cut behind the second quote is out of range. -/

namespace PhpLint.Token

variable {c d quote : Char} {cs front line tail rest label more : List Char} {n : Nat}

theorem takeWhile_append_cons {p : Char → Bool} (h : p d = false) :
    (line ++ d :: more).takeWhile p = line.takeWhile p := by
  rw [List.takeWhile_append, List.takeWhile_cons_of_neg (by simp [h]), List.append_nil]
  split
  next hall => exact ((List.takeWhile_prefix p).eq_of_length hall).symm
  next => rfl

theorem dropWhile_append_cons {p : Char → Bool} (h : p d = false) :
    (line ++ d :: more).dropWhile p = line.dropWhile p ++ d :: more := by
  rw [List.dropWhile_append, List.dropWhile_cons_of_neg (by simp [h])]
  split
  next hall => rw [List.isEmpty_iff.1 hall, List.nil_append]
  next => rfl

namespace Heredoc

/-- Length through the label that closes a heredoc in this line or a later one. -/
def endLength? (label cs : List Char) : Option Nat :=
  (markerLength? label cs).or (bodyLength? label cs)

theorem bodyLength?_eq_none (h : '\n' ∉ cs) : bodyLength? label cs = none := by
  rw [Option.eq_none_iff_forall_ne_some]
  intro n hn
  exact h (List.mem_of_mem_take (newline_of_bodyLength? hn))

theorem bodyLength?_line (h : '\n' ∉ line) (more : List Char) :
    bodyLength? label (line ++ '\n' :: more) =
      (endLength? label more).map (line.length + 1 + ·) := by
  induction line with
  | nil =>
    rw [List.nil_append, bodyLength?, if_pos (beq_self_eq_true '\n'), endLength?, ← Option.map_or]
    exact congrArg (Option.map · _) (funext fun n => Nat.add_comm n 1)
  | cons c line ih =>
    simp only [List.mem_cons, not_or] at h
    rw [List.cons_append, bodyLength?, if_neg (by simpa using Ne.symm h.1), ih h.2, Option.map_map]
    refine congrArg (Option.map · _) (funext fun n => ?_)
    simp only [Function.comp_apply, List.length_cons]
    omega

/-- Whether a line closes the heredoc is decided before it ends. -/
theorem markerLength?_line (hlabel : ∀ c ∈ label, isNamePart c = true) (more : List Char) :
    markerLength? label (line ++ '\n' :: more) = markerLength? label line := by
  have hnew : '\n' ∉ label := fun hmem => absurd (hlabel _ hmem) (by decide)
  ext n
  rw [markerLength?_eq_some_iff, markerLength?_eq_some_iff, takeWhile_append_cons rfl,
    dropWhile_append_cons rfl]
  constructor
  · rintro ⟨after, hafter, hnone, rfl⟩
    rcases List.append_eq_append_iff.1 hafter with ⟨extra, rfl, hextra⟩ | ⟨extra, hbody, rfl⟩
    · cases extra with
      | nil => exact ⟨[], by simp, rfl, by simp⟩
      | cons d extra =>
        obtain ⟨rfl, -⟩ := List.cons.inj hextra
        simp at hnew
    · refine ⟨extra, hbody, ?_, rfl⟩
      cases extra with
      | nil => rfl
      | cons d extra => exact hnone
  · rintro ⟨after, hafter, hnone, rfl⟩
    refine ⟨after ++ '\n' :: more, by rw [hafter, List.append_assoc], ?_, rfl⟩
    cases after with
    | nil => rfl
    | cons d after => exact hnone

end Heredoc

theorem Heredoc.OpenQuote.scan_eq_error {left : List Char} (h : Heredoc.OpenQuote left) :
    scan .code left = .error .openHeredocQuote := by
  obtain ⟨blanks, quote, name, rfl, hblanks, hquote, hne, hsize⟩ := h
  have hopen : Heredoc.isIndent quote = false := by rcases hquote with rfl | rfl <;> rfl
  have htake : (blanks ++ quote :: name).takeWhile Heredoc.isIndent = blanks := by
    rw [takeWhile_append_cons hopen, List.takeWhile_eq_self_iff.2 hblanks]
  have hdrop : (blanks ++ quote :: name).dropWhile Heredoc.isIndent = quote :: name := by
    rw [dropWhile_append_cons hopen, List.dropWhile_eq_nil_iff.2 hblanks, List.nil_append]
  have hlength : Heredoc.lengthAfter? (blanks ++ quote :: name) = .error .openHeredocQuote := by
    have hone : Heredoc.quoteLength (quote :: name) = 1 := by rcases hquote with rfl | rfl <;> rfl
    have hnone : name.length ≠ 0 := by simpa using hne
    rw [Heredoc.lengthAfter?_eq, htake, hdrop, hone]
    simp [hsize, hnone]
  have hblank : Text.isBlank '<' = false := rfl
  rw [scan]
  simp [lexeme, codeLexeme, hblank, hlength]

/-- What is cut off the front of a text is what a scan of it begins with. -/
theorem Cuts.scan_eq {mode last : Mode} {cs left : List Char} {tokens : List Token}
    (h : Cuts mode cs tokens last left) :
    scan mode cs = (scan last left).map (tokens ++ ·) := by
  induction h with
  | done mode left => cases scan mode left <;> rfl
  | @token mode last c rest behind left found token tokens hfound hkind hlength htext _ ih =>
    obtain ⟨further, hfurther⟩ := Nat.exists_eq_add_of_le' (lexeme_within hfound).1
    rw [← String.length_toList, hfurther] at hlength
    have htake : c :: rest.take further = token.text.toList := by
      rw [← List.take_succ_cons, htext, ← hlength, List.take_left]
    have hdrop : rest.drop further = behind := by
      rw [← List.drop_succ_cons, htext, ← hlength, List.drop_left]
    have htoken : (⟨found.kind, .ofList token.text.toList⟩ : Token) = token := by
      rw [← hkind, String.ofList_toList]
    rw [scan, hfound]
    dsimp only
    rw [hfurther, Nat.add_sub_cancel, hdrop, htake, ih, htoken]
    cases scan last left <;> rfl

namespace Bytewise

open Text (byteLength byteLength_append utf8Size_of_toNat_lt toLower_eq_iff utf8Size_toLower)
open Heredoc (isIndent markerLength? bodyLength? endLength?)

/-! Heredocs. -/

theorem find?_append {p : Char → Bool} (h : ∀ c ∈ line, p c = false) (tail : List Char) :
    find? p (line ++ tail) = (find? p tail).map (byteLength line + ·) := by
  induction line with
  | nil => simp [byteLength]
  | cons c line ih =>
    rw [List.forall_mem_cons] at h
    rw [List.cons_append, find?, h.1, ih h.2, Option.map_map]
    exact congrArg (Option.map · _) (funext fun n => (Nat.add_assoc ..).symm)

theorem byteLength_sub_dropWhile (p : Char → Bool) (cs : List Char) :
    byteLength cs - byteLength (cs.dropWhile p) = byteLength (cs.takeWhile p) := by
  have h := byteLength_append (cs.takeWhile p) (cs.dropWhile p)
  rw [List.takeWhile_append_dropWhile] at h
  omega

theorem beq_newline_of_notMem (hline : '\n' ∉ line) : ∀ c ∈ line, (c == '\n') = false :=
  fun _ hc => beq_eq_false_iff_ne.2 fun hnew => hline (hnew ▸ hc)

/-- The line behind `front` ends where its text does. -/
theorem find?_newline (front : List Char) (hline : '\n' ∉ line)
    (htail : tail = [] ∨ ∃ more, tail = '\n' :: more) :
    (find? (· == '\n') (line ++ tail)).elim (byteLength (front ++ (line ++ tail)))
      (byteLength front + ·) = byteLength front + byteLength line := by
  rw [find?_append (beq_newline_of_notMem hline)]
  rcases htail with rfl | ⟨more, rfl⟩
  · rw [List.append_nil]
    exact byteLength_append ..
  · rfl

/-- What stands behind a label is looked at where the label is there. -/
theorem followed_label (label body : List Char) :
    followed (label.isPrefixOf body) (byteLength label) isNamePart body =
      .ok (label.isPrefixOf body && (body.drop label.length).head?.any isNamePart) := by
  refine followed_eq fun hpre => ?_
  obtain ⟨after, rfl⟩ := List.isPrefixOf_iff_prefix.1 hpre
  rw [behind_append, List.drop_left]

theorem take_through_label (h : label.isPrefixOf (line.dropWhile isIndent) = true) :
    line.take ((line.takeWhile isIndent).length + label.length) =
      line.takeWhile isIndent ++ label := by
  obtain ⟨after, hafter⟩ := List.isPrefixOf_iff_prefix.1 h
  rw [List.take_add, take_length_takeWhile, Heredoc.drop_length_takeWhile, ← hafter, List.take_left]

theorem lineStep_eq (front label : List Char) (hline : '\n' ∉ line)
    (htail : tail = [] ∨ ∃ more, tail = '\n' :: more) :
    lineStep label (front ++ (line ++ tail)) (byteLength front) =
      .ok (match markerLength? label line with
        | some n => .inr (some (byteLength (front ++ line.take n)))
        | none =>
          if tail = [] then .inr none else .inl (byteLength front + byteLength line + 1)) := by
  have hend : (byteLength front + byteLength line == byteLength (front ++ (line ++ tail))) =
      decide (tail = []) := by
    rw [byteLength_append, byteLength_append, Bool.eq_iff_iff, beq_iff_eq, decide_eq_true_eq]
    constructor
    · intro h
      exact Text.eq_nil_of_byteLength_eq_zero (by omega)
    · rintro rfl
      simp [byteLength]
  rw [lineStep, behind_append, bind_ok]
  dsimp only
  rw [find?_newline front hline htail, between_append, bind_ok, followed_label, bind_ok,
    byteLength_sub_dropWhile, hend]
  simp only [markerLength?]
  generalize hopens : label.isPrefixOf (line.dropWhile isIndent) = opens
  cases hmore : ((line.dropWhile isIndent).drop label.length).head?.any isNamePart with
  | true =>
    simp only [Bool.and_true, Bool.and_not_self, Bool.not_true, Bool.and_false]
    by_cases hnil : tail = [] <;> simp [hnil] <;> rfl
  | false =>
    cases opens with
    | false => by_cases hnil : tail = [] <;> simp [hnil] <;> rfl
    | true =>
      simp [take_through_label hopens, byteLength_append, Nat.add_assoc]
      rfl

/-- The first line of a text, and what ends it. -/
theorem exists_line (cs : List Char) : ∃ line tail, cs = line ++ tail ∧ '\n' ∉ line ∧
    (tail = [] ∨ ∃ more, tail = '\n' :: more) := by
  refine ⟨cs.takeWhile (· != '\n'), cs.dropWhile (· != '\n'),
    List.takeWhile_append_dropWhile.symm, fun hmem => ?_, ?_⟩
  · have := List.all_eq_true.1 List.all_takeWhile _ hmem
    simp at this
  · have hhead := head?_dropWhile (· != '\n') cs
    cases htail : cs.dropWhile (· != '\n') with
    | nil => exact .inl rfl
    | cons c more =>
      rw [htail] at hhead
      exact .inr ⟨more, by simpa using hhead⟩

theorem append_line (front line more : List Char) :
    front ++ (line ++ '\n' :: more) = front ++ line ++ ['\n'] ++ more := by simp

theorem byteLength_line (front line : List Char) :
    byteLength (front ++ line ++ ['\n']) = byteLength front + (byteLength line + 1) := by
  rw [byteLength_append, byteLength_append, Nat.add_assoc]
  rfl

/-- The next line closes the heredoc as it does behind this one. -/
theorem map_endLength? (front line more : List Char) :
    (endLength? label more).map (fun n => byteLength (front ++ line ++ ['\n'] ++ more.take n)) =
      ((endLength? label more).map (line.length + 1 + ·)).map fun n =>
        byteLength (front ++ (line ++ '\n' :: more).take n) := by
  rw [Option.map_map]
  refine congrArg (Option.map · _) (funext fun n => ?_)
  rw [Function.comp_apply, Nat.add_assoc, List.take_length_add_append, Nat.add_comm 1,
    List.take_succ_cons, append_line]

theorem line_loop (front rest : List Char) (hlabel : ∀ c ∈ label, isNamePart c = true) :
    loop (byteLength (front ++ rest)) id (lineStep label (front ++ rest)) (byteLength front) =
      .ok ((endLength? label rest).map fun n => byteLength (front ++ rest.take n)) := by
  induction hlen : rest.length using Nat.strong_induction_on generalizing front rest with
  | _ size ih =>
  obtain ⟨line, tail, rfl, hline, htail⟩ := exists_line rest
  have hstep := lineStep_eq front label hline htail
  have hmarker : markerLength? label (line ++ tail) = markerLength? label line := by
    rcases htail with rfl | ⟨more, rfl⟩
    · rw [List.append_nil]
    · exact Heredoc.markerLength?_line hlabel more
  rw [endLength?, hmarker]
  cases hclose : markerLength? label line with
  | some n =>
    have hle := Heredoc.le_of_markerLength?_eq_some hclose
    rw [hclose] at hstep
    rw [loop_of_result hstep, Option.some_or, Option.map_some, List.take_append_of_le_length hle]
  | none =>
    rw [hclose] at hstep
    dsimp only at hstep
    rw [Option.none_or]
    rcases htail with rfl | ⟨more, rfl⟩
    · rw [if_pos rfl] at hstep
      rw [loop_of_result hstep, List.append_nil, Heredoc.bodyLength?_eq_none hline]
      rfl
    · rw [if_neg (List.cons_ne_nil _ _), Nat.add_assoc, ← byteLength_line, append_line] at hstep
      have hfar : byteLength front < byteLength (front ++ line ++ ['\n']) := by
        rw [byteLength_line]
        omega
      have hshort : more.length < size := by simp [← hlen]; omega
      rw [append_line, loop_of_next hstep hfar (byteLength_le_append _ more),
        ih more.length hshort _ _ rfl, Heredoc.bodyLength?_line hline, map_endLength?]

/-- From the label on: the line it stands in is passed over. -/
theorem body_loop (front rest : List Char) (hlabel : ∀ c ∈ label, isNamePart c = true) :
    (match find? (· == '\n') rest with
      | none => .ok none
      | some line => loop (byteLength (front ++ rest)) id (lineStep label (front ++ rest))
          (byteLength front + (line + 1))) =
      Except.ok ((bodyLength? label rest).map fun n => byteLength (front ++ rest.take n)) := by
  obtain ⟨line, tail, rfl, hline, htail⟩ := exists_line rest
  rw [find?_append (beq_newline_of_notMem hline)]
  rcases htail with rfl | ⟨more, rfl⟩
  · rw [List.append_nil, Heredoc.bodyLength?_eq_none hline]
    rfl
  · have hloop := line_loop (front ++ line ++ ['\n']) more hlabel
    rw [byteLength_line, ← append_line, map_endLength?] at hloop
    rw [Heredoc.bodyLength?_line hline]
    exact hloop

theorem utf8Size_of_not_isNamePart (h : isNamePart c = false) : c.utf8Size = 1 := by
  simp only [isNamePart, Bool.or_eq_false_iff, decide_eq_false_iff_not] at h
  exact utf8Size_of_toNat_lt (Nat.lt_of_not_le h.2)

theorem narrow_quoteLength (cs : List Char) : Narrow (Heredoc.quoteLength cs) cs := by
  unfold Heredoc.quoteLength
  split
  next hquote =>
    obtain ⟨c, hc, hquote⟩ := (Option.any_eq_true ..).1 hquote
    obtain ⟨rest, rfl⟩ := List.head?_eq_some_iff.1 hc
    refine .cons ?_ (.zero rest)
    rcases Bool.or_eq_true_iff.1 hquote with h | h <;> exact beq_iff_eq.1 h ▸ rfl
  next => exact .zero cs

theorem quoteLength_le_one (cs : List Char) : Heredoc.quoteLength cs ≤ 1 := by
  unfold Heredoc.quoteLength
  split <;> decide

/-- Behind a name stands one byte, if anything. -/
theorem narrow_behind_name (cs : List Char) (hle : n ≤ 1)
    (hroom : n ≤ (cs.drop (nameLength cs)).length)
    (hname : nameLength cs ≠ 0) : Narrow n (cs.drop (nameLength cs)) := by
  have hdrop : cs.drop (nameLength cs) = cs.dropWhile isNamePart := by
    unfold nameLength at hname ⊢
    split at hname
    · exact absurd rfl hname
    · split at hname
      next c cs hc => rw [if_pos hc, Heredoc.drop_length_takeWhile]
      next => exact absurd rfl hname
  have hhead := head?_dropWhile isNamePart cs
  rw [hdrop] at hroom ⊢
  cases hrest : cs.dropWhile isNamePart with
  | nil =>
    rw [hrest, List.length_nil] at hroom
    exact ⟨hroom, by simp⟩
  | cons d rest =>
    rw [hrest] at hhead
    have hd := ((Narrow.zero rest).cons (utf8Size_of_not_isNamePart hhead))
    exact ⟨by simp; omega, fun c hc => hd.size_eq c (List.take_subset_take_left _ hle hc)⟩

/-- From the label on. What is skipped behind it is there, or the cut is out of range. -/
theorem labelledBytes?_eq (hone : n ≤ 1) (front named : List Char) :
    labelledBytes? (byteLength front) n (front ++ named) =
      let size := nameLength named
      if size = 0 then .ok none
      else if (named.drop size).length < n then .error .cut
      else
        .ok ((bodyLength? (named.take size) ((named.drop size).drop n)).map fun m =>
          byteLength ((front ++ named).take (front.length + (size + (n + m))))) := by
  have hname := List.take_append_drop (nameLength named) named
  have hlabel := Heredoc.isNamePart_of_mem_take_nameLength named
  have hlen := List.length_take_of_le (nameLength_le named)
  rw [labelledBytes?, behind_append, bind_ok, nameBytes_eq]
  simp only [beq_iff_eq, byteLength_take_eq_zero_iff (nameLength_le named)]
  by_cases hsize : nameLength named = 0
  · rw [if_pos hsize, if_pos hsize]
    rfl
  rw [if_neg hsize, if_neg hsize]
  have hnarrow := fun hroom => narrow_behind_name named hone hroom hsize
  generalize nameLength named = size at *
  generalize named.drop size = rest at *
  generalize named.take size = name at *
  subst hname hlen
  rw [between_append, bind_ok, ← List.append_assoc, ← byteLength_append]
  by_cases hroom : rest.length < n
  · have hout : byteLength (front ++ name ++ rest) < byteLength (front ++ name) + n := by
      obtain rfl : rest = [] := List.eq_nil_of_length_eq_zero (by omega)
      rw [List.append_nil]
      exact Nat.lt_add_of_pos_right hroom
    rw [if_pos hroom, behind_eq_error hout]
    rfl
  · have hskip := hnarrow (Nat.le_of_not_lt hroom)
    have hbody := body_loop (front ++ name ++ rest.take n) (rest.drop n) hlabel
    have hfront : ∀ m, front ++ name ++ rest.take n ++ (rest.drop n).take m =
        (front ++ (name ++ rest)).take (front.length + (name.length + (n + m))) := by
      intro m
      rw [List.take_length_add_append, List.take_length_add_append, List.take_add]
      simp only [List.append_assoc]
    rw [byteLength_append _ (rest.take n), hskip.byteLength_take, List.append_assoc,
      List.append_assoc, List.take_append_drop] at hbody
    simp only [hfront] at hbody
    rw [if_neg hroom, hskip.behind_append, bind_ok, List.append_assoc]
    exact hbody

theorem heredocBytes?_eq (after : List Char) : heredocBytes? ('<' :: '<' :: '<' :: after) =
    match Heredoc.lengthAfter? after with
    | .error _ => .error .cut
    | .ok found =>
      .ok (found.map fun n => byteLength (('<' :: '<' :: '<' :: after).take n)) := by
  have hbehind : behind 3 ('<' :: '<' :: '<' :: after) = .ok after :=
    behind_append ['<', '<', '<'] after
  have hquote := narrow_quoteLength (after.dropWhile isIndent)
  have hone := quoteLength_le_one (after.dropWhile isIndent)
  have hsplit := List.takeWhile_append_dropWhile (p := isIndent) (l := after)
  rw [heredocBytes?, hbehind, bind_ok, Heredoc.lengthAfter?_eq]
  dsimp only
  change labelledBytes? (_ + Heredoc.quoteLength (after.dropWhile isIndent))
    (Heredoc.quoteLength (after.dropWhile isIndent)) _ = _
  generalize after.dropWhile isIndent = head at *
  generalize after.takeWhile isIndent = blanks at *
  generalize Heredoc.quoteLength head = quote at *
  subst hsplit
  have htext : '<' :: '<' :: '<' :: (blanks ++ head) =
      '<' :: '<' :: '<' :: (blanks ++ head.take quote) ++ head.drop quote := by
    simp
  have hstart : byteLength ('<' :: '<' :: '<' :: (blanks ++ head)) - byteLength head + quote =
      byteLength ('<' :: '<' :: '<' :: (blanks ++ head.take quote)) := by
    simp only [byteLength, byteLength_append, hquote.byteLength_take]
    omega
  have hlength : ('<' :: '<' :: '<' :: (blanks ++ head.take quote)).length =
      3 + (blanks.length + quote) := by
    simp [Nat.min_eq_left hquote.le]
    omega
  rw [hstart, htext, labelledBytes?_eq hone, hlength]
  dsimp only
  split
  next => rfl
  next =>
    split
    next => rfl
    next =>
      dsimp only
      rw [Option.map_map]
      refine congrArg Except.ok (congrArg (Option.map · _) (funext fun m => ?_))
      simp only [Function.comp_apply, Nat.add_assoc]

/-! Lexemes. -/

/-- A lexeme of the text, its length counted in bytes. -/
def inBytes (cs : List Char) (found : Lexeme) : Lexeme :=
  { found with length := byteLength (cs.take found.length) }

theorem isPrefixOf_pair (a b : Char) :
    [a, b].isPrefixOf (c :: rest) = (c == a && rest.head? == some b) := by
  cases rest with
  | nil => simp [List.isPrefixOf]
  | cons d rest =>
    simp only [List.isPrefixOf, List.head?_cons, Option.some_beq_some, Bool.and_true]
    rw [Bool.beq_comm (a := a), Bool.beq_comm (a := b)]

theorem quotedLexeme_eq (kind : Kind) (hquote : quote.utf8Size = 1) (rest : List Char) :
    quotedLexeme kind quote (quote :: rest) =
      inBytes (quote :: rest) (Token.quotedLexeme kind quote rest) := by
  rw [quotedLexeme, quotedBytes?_eq hquote, Token.quotedLexeme]
  cases quotedLength? quote rest with
  | some n => rfl
  | none =>
    have hall : (quote :: rest).take (1 + rest.length) = quote :: rest :=
      List.take_of_length_le (by simp [Nat.add_comm])
    simp [inBytes, hall]

theorem operatorLexeme_eq (c : Char) (rest : List Char) : operatorLexeme c (c :: rest) =
    inBytes (c :: rest) ((operatorAt? (c :: rest)).getD ⟨.errorToken, 1, .code⟩) := by
  rw [operatorLexeme, operatorAt?]
  cases hop : operators.find? fun op => op.1.toList.isPrefixOf (c :: rest) with
  | none => simp [inBytes, byteLength]
  | some op =>
    have hfound := List.find?_some hop
    have hpre := List.isPrefixOf_iff_prefix.1 hfound
    have htake : (c :: rest).take op.1.length = op.1.toList := by
      rw [← String.length_toList, ← List.prefix_iff_eq_take.1 hpre]
    simp [inBytes, htake, Text.byteLength_toList]

theorem digits_or_point (h : (c.isDigit || (c == '.' && rest.head?.any Char.isDigit)) = true) :
    0 < digitsLength (c :: rest) ∨ isPoint (c :: rest) = true := by
  rcases Bool.or_eq_true_iff.1 h with h | h
  · exact .inl (digitsLength_pos h)
  · exact .inr (by simpa [isPoint] using h)

theorem plainLexeme_eq (c : Char) (rest : List Char) :
    plainLexeme c (c :: rest) = .ok (inBytes (c :: rest) (Token.plainLexeme c rest)) := by
  unfold plainLexeme Token.plainLexeme
  simp only [isPrefixOf_pair]
  rw [Bool.or_comm]
  by_cases hshell : (c == '\x60') = true
  · rw [if_pos hshell, if_pos hshell]
    obtain rfl := beq_iff_eq.1 hshell
    exact congrArg Except.ok (quotedLexeme_eq _ rfl rest)
  rw [if_neg hshell, if_neg hshell]
  by_cases hline : (c == '#' || c == '/' && rest.head? == some '/') = true
  · rw [if_pos hline, if_pos hline, lineCommentBytes_eq]
    rfl
  rw [if_neg hline, if_neg hline]
  by_cases hblock : (c == '/' && rest.head? == some '*') = true
  · rw [if_pos hblock, if_pos hblock]
    simp only [Bool.and_eq_true, beq_iff_eq] at hblock
    obtain ⟨rfl, hnext⟩ := hblock
    obtain ⟨after, rfl⟩ := List.head?_eq_some_iff.1 hnext
    rw [blockCommentBytes_eq]
    rfl
  rw [if_neg hblock, if_neg hblock]
  by_cases hdollar : (c == '$') = true
  · rw [if_pos hdollar, if_pos hdollar]
    obtain rfl := beq_iff_eq.1 hdollar
    rw [((Narrow.zero rest).cons rfl).behind_eq, bind_ok]
    simp only [List.drop_succ_cons, List.drop_zero, nameBytes_eq, Nat.pos_iff_ne_zero, ne_eq,
      byteLength_take_eq_zero_iff (nameLength_le rest), beq_iff_eq, ite_not]
    refine congrArg Except.ok ?_
    split
    next => rfl
    next =>
      have hsize : '$'.utf8Size = 1 := rfl
      simp [inBytes, Nat.add_comm 1, byteLength, hsize]
  rw [if_neg hdollar, if_neg hdollar]
  by_cases hstring : (c == '\x27' || c == '\x22') = true
  · rw [if_pos hstring, if_pos hstring]
    rcases Bool.or_eq_true_iff.1 hstring with h | h
    all_goals
      obtain rfl := beq_iff_eq.1 h
      exact congrArg Except.ok (quotedLexeme_eq _ rfl rest)
  rw [if_neg hstring, if_neg hstring]
  have hpoint : followed (c == '.') 1 Char.isDigit (c :: rest) =
      .ok (c == '.' && rest.head?.any Char.isDigit) :=
    followed_eq fun hc => ((Narrow.zero rest).cons (beq_iff_eq.1 hc ▸ rfl)).behind_eq
  rw [hpoint, bind_ok]
  by_cases hnumber : (c.isDigit || c == '.' && rest.head?.any Char.isDigit) = true
  · rw [if_pos hnumber, if_pos hnumber, number_eq (digits_or_point hnumber), bind_ok]
    simp [inBytes, (narrow_number (c :: rest)).byteLength_take]
    rfl
  rw [if_neg hnumber, if_neg hnumber]
  have hseparator : followed (c == '\\') 1 isNameStart (c :: rest) =
      .ok (c == '\\' && rest.head?.any isNameStart) :=
    followed_eq fun hc => ((Narrow.zero rest).cons (beq_iff_eq.1 hc ▸ rfl)).behind_eq
  rw [hseparator, bind_ok]
  by_cases hname : (isNameStart c || c == '\\' && rest.head?.any isNameStart) = true
  · have hleads : (c :: rest).head?.any isNameStart = true ∨ isSeparator (c :: rest) = true := by
      simpa [isSeparator] using hname
    rw [if_pos hname, if_pos hname, qualifiedBytes_eq hleads, bind_ok, before_take]
    rfl
  rw [if_neg hname, if_neg hname]
  exact congrArg Except.ok (operatorLexeme_eq c rest)

/-! Markup. -/

theorem isOpenTag_iff : isOpenTag cs = true ↔ ∃ p h q after, cs = '<' :: '?' :: p :: h :: q :: after ∧
    p.toLower = 'p' ∧ h.toLower = 'h' ∧ q.toLower = 'p' := by
  unfold isOpenTag
  split
  next p h q after => simp [and_assoc]
  next hother =>
    refine ⟨nofun, ?_⟩
    rintro ⟨p, h, q, after, rfl, -⟩
    exact absurd rfl (hother p h q after)

theorem isPrefixOf_map_toLower (cs : List Char) :
    ['<', '?', 'p', 'h', 'p'].isPrefixOf (cs.map Char.toLower) = isOpenTag cs := by
  have hless : ∀ c : Char, c.toLower = '<' ↔ c = '<' := fun c =>
    toLower_eq_iff (by decide) (by decide)
  have hquestion : ∀ c : Char, c.toLower = '?' ↔ c = '?' := fun c =>
    toLower_eq_iff (by decide) (by decide)
  rw [Bool.eq_iff_iff, List.isPrefixOf_iff_prefix, isOpenTag_iff]
  constructor
  · rintro ⟨after, hafter⟩
    simp only [List.cons_append, List.nil_append, eq_comm (b := cs.map Char.toLower),
      List.map_eq_cons_iff, hless, hquestion] at hafter
    obtain ⟨_, _, rfl, rfl, _, _, rfl, rfl, p, _, rfl, hp, h, _, rfl, hh, q, rest, rfl, hq, -⟩ :=
      hafter
    exact ⟨p, h, q, rest, rfl, hp, hh, hq⟩
  · rintro ⟨p, h, q, after, rfl, hp, hh, hq⟩
    exact ⟨after.map Char.toLower, by simp [hp, hh, hq]⟩

theorem narrow_openTag (h : isOpenTag cs = true) : Narrow 5 cs := by
  obtain ⟨p, h, q, after, rfl, hp, hh, hq⟩ := isOpenTag_iff.1 h
  have hsize : ∀ {c d : Char}, c.toLower = d → d.utf8Size = 1 → c.utf8Size = 1 := fun hc hd => by
    rw [← utf8Size_toLower, hc, hd]
  exact .cons rfl (.cons rfl (.cons (hsize hp rfl) (.cons (hsize hh rfl) (.cons (hsize hq rfl)
    (.zero after)))))

theorem findText?_markup (cs : List Char) :
    (findText? ['<', '?', 'p', 'h', 'p'] (cs.map Char.toLower)).getD (byteLength cs) =
      byteLength (cs.take (markupLength cs)) := by
  induction cs with
  | nil => rfl
  | cons c cs ih =>
    rw [List.map_cons, findText?, ← List.map_cons, isPrefixOf_map_toLower, markupLength]
    split
    next => rfl
    next =>
      rw [Nat.add_comm 1, List.take_succ_cons, byteLength, byteLength, ← ih, utf8Size_toLower]
      cases findText? _ (cs.map Char.toLower) <;> rfl

theorem markupLexeme_eq (c : Char) (rest : List Char) :
    markupLexeme (c :: rest) = inBytes (c :: rest) (Token.markupLexeme c rest) := by
  have hfound := findText?_markup (c :: rest)
  rw [markupLexeme, Token.markupLexeme]
  rw [List.map_cons, findText?, ← List.map_cons, isPrefixOf_map_toLower] at *
  split at hfound
  next hopen =>
    rw [if_pos hopen, if_pos hopen, inBytes, (narrow_openTag hopen).byteLength_take]
    rfl
  next hopen =>
    rw [if_neg hopen, if_neg hopen, inBytes, ← hfound]
    cases findText? ['<', '?', 'p', 'h', 'p'] (rest.map Char.toLower) with
    | none => rfl
    | some n =>
      obtain ⟨m, hm⟩ := Nat.exists_eq_add_of_le' c.toLower.utf8Size_pos
      have hpos : c.toLower.utf8Size + n = m + n + 1 := by omega
      simp only [Option.map_some, hpos, Option.getD_some]

/-! The scan. -/

theorem codeLexeme_eq (c : Char) (rest : List Char) : codeLexeme (c :: rest) =
    match Token.codeLexeme c rest with
    | .error _ => .error .cut
    | .ok found => .ok (inBytes (c :: rest) found) := by
  unfold codeLexeme Token.codeLexeme
  dsimp only
  simp only [isPrefixOf_pair]
  by_cases hclose : (c == '?' && rest.head? == some '>') = true
  · rw [if_pos hclose, if_pos hclose]
    simp only [Bool.and_eq_true, beq_iff_eq] at hclose
    obtain ⟨rfl, hnext⟩ := hclose
    obtain ⟨after, rfl⟩ := List.head?_eq_some_iff.1 hnext
    have htag : Narrow 2 ('?' :: '>' :: after) := .cons rfl (.cons rfl (.zero after))
    rw [htag.behind_eq, bind_ok]
    rcases after with _ | ⟨d, after⟩
    · rfl
    · by_cases hnew : d = '\n'
      · subst hnew
        rfl
      · simp [hnew, inBytes]
        rfl
  rw [if_neg hclose, if_neg hclose]
  by_cases hblank : Text.isBlank c = true
  · rw [if_pos hblank, if_pos hblank, runBytes_eq]
    simp only [inBytes, take_length_takeWhile]
    rfl
  rw [if_neg hblank, if_neg hblank]
  by_cases hattribute : (c == '#' && rest.head? == some '[') = true
  · rw [if_pos hattribute, if_pos hattribute]
    simp only [Bool.and_eq_true, beq_iff_eq] at hattribute
    obtain ⟨rfl, hnext⟩ := hattribute
    obtain ⟨after, rfl⟩ := List.head?_eq_some_iff.1 hnext
    rw [attributeBytes_eq]
    rfl
  rw [if_neg hattribute, if_neg hattribute]
  by_cases hopen : ['<', '<', '<'].isPrefixOf (c :: rest) = true
  · rw [if_pos hopen, if_pos hopen]
    obtain ⟨after, hafter⟩ := List.isPrefixOf_iff_prefix.1 hopen
    simp only [List.cons_append, List.nil_append, List.cons.injEq] at hafter
    obtain ⟨rfl, rfl⟩ := hafter
    have hplain := plainLexeme_eq '<' ('<' :: '<' :: after)
    have hbytes := heredocBytes?_eq after
    rw [hbytes, List.drop_succ_cons, List.drop_succ_cons, List.drop_succ_cons, List.drop_zero]
    cases Heredoc.lengthAfter? after with
    | error fault => rfl
    | ok length =>
      cases length with
      | none => exact hplain
      | some n => rfl
  rw [if_neg hopen, if_neg hopen]
  exact plainLexeme_eq c rest

theorem lexeme_eq (mode : Mode) (c : Char) (rest : List Char) : lexeme mode (c :: rest) =
    match Token.lexeme mode c rest with
    | .error _ => .error .cut
    | .ok found => .ok (inBytes (c :: rest) found) := by
  cases mode with
  | markup => exact congrArg Except.ok (markupLexeme_eq c rest)
  | code => exact codeLexeme_eq c rest

theorem turn_eq (mode : Mode) (tokens : List Token) (front : List Char) (c : Char)
    (rest : List Char) : Cursor.turn (front ++ c :: rest) ⟨byteLength front, mode, tokens⟩ =
      match Token.lexeme mode c rest with
      | .error _ => .error .cut
      | .ok found =>
        let text := (c :: rest).take found.length
        .ok (.inl ⟨byteLength (front ++ text), found.mode,
          tokens ++ [⟨found.kind, .ofList text⟩]⟩) := by
  have hin : ¬ byteLength (front ++ c :: rest) ≤ byteLength front :=
    Nat.not_le_of_lt (byteLength_lt_append front (List.cons_ne_nil c rest))
  rw [Cursor.turn, if_neg hin, behind_append, bind_ok, lexeme_eq]
  cases Token.lexeme mode c rest with
  | error => rfl
  | ok found =>
    have hcut := between_append front ((c :: rest).take found.length)
      ((c :: rest).drop found.length)
    rw [List.take_append_drop] at hcut
    rw [bind_ok]
    dsimp only [inBytes]
    rw [hcut, bind_ok, byteLength_append]
    rfl

theorem scan_loop {mode : Mode} {tokens : List Token} (front rest : List Char) :
    loop (byteLength (front ++ rest)) Cursor.pos (Cursor.turn (front ++ rest))
        ⟨byteLength front, mode, tokens⟩ =
      match Token.scan mode rest with
      | .error _ => .error .cut
      | .ok more => .ok (tokens ++ more) := by
  induction hlen : rest.length using Nat.strong_induction_on generalizing mode tokens front rest with
  | _ size ih =>
  cases rest with
  | nil =>
    rw [Token.scan]
    refine (loop_of_result ?_).trans (congrArg Except.ok (List.append_nil tokens).symm)
    rw [Cursor.turn, if_pos (by simp)]
    rfl
  | cons c rest =>
    have hturn := turn_eq mode tokens front c rest
    rw [Token.scan]
    cases hfound : Token.lexeme mode c rest with
    | error fault =>
      rw [hfound] at hturn
      rw [loop_of_error hturn]
    | ok found =>
      obtain ⟨hpos, hle⟩ := lexeme_within hfound
      obtain ⟨further, hfurther⟩ := Nat.exists_eq_add_of_le' hpos
      have hsplit : front ++ c :: rest = front ++ c :: rest.take further ++ rest.drop further := by
        simp
      have hfar := byteLength_lt_append front (List.cons_ne_nil c (rest.take further))
      have hin : byteLength (front ++ c :: rest.take further) ≤ byteLength (front ++ c :: rest) := by
        rw [hsplit]
        exact byteLength_le_append ..
      have hshort : (rest.drop further).length < size := by
        rw [← hlen, List.length_drop, List.length_cons]
        omega
      rw [hfound] at hturn
      dsimp only at hturn
      rw [hfurther, List.take_succ_cons] at hturn
      rw [loop_of_next hturn hfar hin, hsplit, ih _ hshort _ _ rfl]
      dsimp only
      rw [hfurther, Nat.add_sub_cancel]
      cases Token.scan found.mode (rest.drop further) with
      | error fault => rfl
      | ok more => simp

/-- The scan by byte offsets, as the one by characters. -/
theorem scan_eq (mode : Mode) (source : List Char) : scan mode source =
    match Token.scan mode source with
    | .error _ => .error .cut
    | .ok tokens => .ok tokens :=
  scan_loop [] source

theorem scan_eq_error_iff (mode : Mode) (source : List Char) (misstep : Misstep) :
    scan mode source = .error misstep ↔ misstep = .cut ∧
      ∃ tokens left, Cuts mode source tokens .code left ∧ Heredoc.OpenQuote left := by
  have hcuts := scan_cuts mode source
  rw [scan_eq]
  cases hscan : Token.scan mode source with
  | error fault =>
    rw [hscan] at hcuts
    simp only [Except.error.injEq, hcuts, and_true, eq_comm]
  | ok tokens =>
    refine ⟨nofun, ?_⟩
    rintro ⟨-, front, left, hfront, hopen⟩
    rw [hfront.scan_eq, hopen.scan_eq_error] at hscan
    cases hscan

theorem scan_eq_ok_iff (mode : Mode) (source : List Char) (tokens : List Token) :
    scan mode source = .ok tokens ↔ Token.scan mode source = .ok tokens := by
  rw [scan_eq]
  cases Token.scan mode source <;> simp

/-- Scanning a file or code by byte offsets makes a cut out of range, or inside a character, exactly
where an open heredoc label is come to, and makes no other misstep. Every other text has the tokens
that it has by characters. -/
theorem ofFile_and_ofCode_eq_error_iff (source : String) :
    (∀ misstep, ofFile source = .error misstep ↔ misstep = .cut ∧
      ∃ tokens left, Cuts .markup source.toList tokens .code left ∧ Heredoc.OpenQuote left) ∧
    (∀ misstep, ofCode source = .error misstep ↔ misstep = .cut ∧
      ∃ tokens left, Cuts .code source.toList tokens .code left ∧ Heredoc.OpenQuote left) ∧
    (∀ tokens, ofFile source = .ok tokens ↔ Token.ofFile source = .ok tokens) ∧
    ∀ tokens, ofCode source = .ok tokens ↔ Token.ofCode source = .ok tokens :=
  ⟨scan_eq_error_iff .markup source.toList, scan_eq_error_iff .code source.toList,
    scan_eq_ok_iff .markup source.toList, scan_eq_ok_iff .code source.toList⟩

end Bytewise

end PhpLint.Token
