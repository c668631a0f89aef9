import Mathlib.Data.List.TakeWhile
import PhpLint.Proofs.Text.Bytes
import PhpLint.Proofs.Token.Measures
import PhpLint.Token.Bytewise

/-! Each measure in bytes comes to the front of the text that the measure in characters takes. A cut
at the size of a front goes right, so it is enough for every computed offset to name its front. -/

namespace PhpLint.Token.Bytewise

open Text (byteLength byteLength_append utf8Size_of_toNat_lt)
open Heredoc (isIndent)

variable {c d quote : Char} {cs front piece rest label : List Char} {n offset depth : Nat}

theorem bind_ok {α β : Type} (a : α) (f : α → Except Misstep β) : (Except.ok a >>= f) = f a := rfl

/-! Cuts. -/

theorem cut_append (front rest : List Char) :
    cut (byteLength front) (front ++ rest) = .ok (front, rest) := by
  induction front with
  | nil => cases rest <;> rfl
  | cons c front ih =>
    obtain ⟨n, hn⟩ := Nat.exists_eq_add_of_le' c.utf8Size_pos
    have hlen : byteLength (c :: front) = n + byteLength front + 1 := by
      rw [byteLength]
      omega
    have hsub : n + byteLength front + 1 - c.utf8Size = byteLength front := by omega
    rw [hlen, List.cons_append, cut, if_neg (by omega), hsub, ih]
    rfl

theorem cut_eq_error (h : byteLength cs < n) : cut n cs = .error .cut := by
  induction cs generalizing n with
  | nil =>
    obtain ⟨m, rfl⟩ := Nat.exists_eq_add_of_lt h
    rfl
  | cons c cs ih =>
    rw [byteLength] at h
    obtain ⟨m, rfl⟩ := Nat.exists_eq_succ_of_ne_zero (Nat.ne_of_gt (Nat.zero_lt_of_lt h))
    rw [cut]
    split
    · rfl
    · rw [ih (by omega)]
      rfl

theorem before_append (front rest : List Char) :
    before (byteLength front) (front ++ rest) = .ok front := by
  rw [before, cut_append]
  rfl

theorem behind_append (front rest : List Char) :
    behind (byteLength front) (front ++ rest) = .ok rest := by
  rw [behind, cut_append]
  rfl

theorem behind_eq_error (h : byteLength cs < n) : behind n cs = .error .cut := by
  rw [behind, cut_eq_error h]
  rfl

theorem between_append (front piece rest : List Char) :
    between (byteLength front) (byteLength front + byteLength piece) (front ++ (piece ++ rest)) =
      .ok piece := by
  rw [between, ← byteLength_append, ← List.append_assoc, before_append]
  exact behind_append front piece

theorem before_take (n : Nat) (cs : List Char) :
    before (byteLength (cs.take n)) cs = .ok (cs.take n) := by
  have h := before_append (cs.take n) (cs.drop n)
  rwa [List.take_append_drop] at h

theorem followed_eq {here : Bool} {p : Char → Bool}
    (h : here = true → behind n cs = .ok rest) :
    followed here n p cs = .ok (here && rest.head?.any p) := by
  unfold followed
  cases here with
  | false => rfl
  | true => rw [if_pos rfl, h rfl]; rfl

/-! Searches. -/

theorem find?_eq (p : Char → Bool) (cs : List Char) : find? (fun c => !p c) cs =
    if cs.all p then none else some (byteLength (cs.takeWhile p)) := by
  induction cs with
  | nil => rfl
  | cons c cs ih =>
    cases hc : p c with
    | false => simp [find?, hc, byteLength]
    | true =>
      rw [find?, ih]
      by_cases hall : cs.all p = true <;> simp [hc, hall, byteLength]

theorem runBytes_eq (p : Char → Bool) (cs : List Char) :
    runBytes p cs = byteLength (cs.takeWhile p) := by
  rw [runBytes, find?_eq]
  split
  next hall =>
    rw [List.takeWhile_eq_self_iff.2 (List.all_eq_true.1 hall)]
    rfl
  next => rfl

theorem take_length_takeWhile (p : Char → Bool) (cs : List Char) :
    cs.take (cs.takeWhile p).length = cs.takeWhile p :=
  (List.prefix_iff_eq_take.1 (List.takeWhile_prefix p)).symm

theorem nameBytes_eq (cs : List Char) : nameBytes cs = byteLength (cs.take (nameLength cs)) := by
  cases cs with
  | nil => rfl
  | cons c cs =>
    rw [nameBytes, nameLength, List.head?_cons, Option.any_some]
    split
    next => rw [runBytes_eq, take_length_takeWhile]
    next => rfl

theorem byteLength_pos (h : cs ≠ []) : 0 < byteLength cs :=
  Nat.pos_of_ne_zero fun hzero => h (Text.eq_nil_of_byteLength_eq_zero hzero)

theorem byteLength_le_append (front rest : List Char) :
    byteLength front ≤ byteLength (front ++ rest) := by
  rw [byteLength_append]
  exact Nat.le_add_right ..

theorem byteLength_lt_append (front : List Char) (h : piece ≠ []) :
    byteLength front < byteLength (front ++ piece) := by
  rw [byteLength_append]
  exact Nat.lt_add_of_pos_right (byteLength_pos h)

theorem byteLength_take_eq_zero_iff (hn : n ≤ cs.length) : byteLength (cs.take n) = 0 ↔ n = 0 := by
  constructor
  · intro h
    have hnil := congrArg List.length (Text.eq_nil_of_byteLength_eq_zero h)
    rwa [List.length_take_of_le hn] at hnil
  · rintro rfl
    rfl

theorem before_takeWhile (p : Char → Bool) (cs : List Char) :
    before (byteLength (cs.takeWhile p)) cs = .ok (cs.takeWhile p) := by
  have h := before_append (cs.takeWhile p) (cs.dropWhile p)
  rwa [List.takeWhile_append_dropWhile] at h

/-! Comments. -/

theorem findText?_line (cs : List Char) :
    (findText? ['?', '>'] (cs.takeWhile (· != '\n'))).getD (byteLength (cs.takeWhile (· != '\n'))) =
      byteLength (cs.take (lineCommentLength cs)) := by
  fun_induction lineCommentLength cs with
  | case1 => rfl
  | case2 cs => rfl
  | case3 cs => rfl
  | case4 c cs hline hclose ih =>
    have hcons : (c :: cs).takeWhile (· != '\n') = c :: cs.takeWhile (· != '\n') :=
      List.takeWhile_cons_of_pos (by simpa using hline)
    have hpre : ['?', '>'].isPrefixOf (c :: cs.takeWhile (· != '\n')) = false := by
      rw [Bool.eq_false_iff]
      intro h
      obtain ⟨after, hafter⟩ := List.isPrefixOf_iff_prefix.1 h
      obtain ⟨rfl, hrest⟩ := List.cons.inj hafter
      have hcs := List.takeWhile_append_dropWhile (p := (· != '\n')) (l := cs)
      rw [← hrest] at hcs
      exact hclose _ rfl hcs.symm
    rw [hcons, findText?, hpre, Nat.add_comm 1, List.take_succ_cons, byteLength, byteLength, ← ih]
    cases findText? ['?', '>'] (cs.takeWhile (· != '\n')) <;> rfl

theorem lineCommentBytes_eq (cs : List Char) :
    lineCommentBytes cs = .ok (byteLength (cs.take (lineCommentLength cs))) := by
  have hbefore := before_takeWhile (· != '\n') cs
  rw [lineCommentBytes, runBytes_eq, hbefore]
  exact congrArg Except.ok (findText?_line cs)

theorem findText?_block (cs : List Char) :
    ((findText? ['*', '/'] cs).map (· + 2)).getD (byteLength cs) =
      byteLength (cs.take (blockCommentLength cs)) := by
  fun_induction blockCommentLength cs with
  | case1 => rfl
  | case2 cs => rfl
  | case3 c cs hclose ih =>
    have hpre : ['*', '/'].isPrefixOf (c :: cs) = false := by
      rw [Bool.eq_false_iff]
      intro h
      obtain ⟨after, hafter⟩ := List.isPrefixOf_iff_prefix.1 h
      obtain ⟨rfl, hcs⟩ := List.cons.inj hafter
      exact hclose after rfl hcs.symm
    rw [findText?, hpre, Nat.add_comm 1, List.take_succ_cons, byteLength, byteLength, ← ih]
    cases findText? ['*', '/'] cs <;> simp [Nat.add_assoc]

/-- Two characters of one byte each in front. -/
theorem byteLength_cons_cons (hc : c.utf8Size = 1) (hd : d.utf8Size = 1) (cs : List Char) :
    byteLength (c :: d :: cs) = 2 + byteLength cs := by
  rw [byteLength, byteLength, hc, hd]
  omega

theorem blockCommentBytes_eq (cs : List Char) : blockCommentBytes ('/' :: '*' :: cs) =
    .ok (byteLength (('/' :: '*' :: cs).take (2 + blockCommentLength cs))) := by
  have hbehind : behind 2 ('/' :: '*' :: cs) = .ok cs := behind_append ['/', '*'] cs
  rw [blockCommentBytes, hbehind, bind_ok, Nat.add_comm 2, List.take_succ_cons,
    List.take_succ_cons, byteLength_cons_cons rfl rfl, byteLength_cons_cons rfl rfl,
    ← findText?_block]
  cases findText? ['*', '/'] cs with
  | none => rfl
  | some n => exact congrArg Except.ok (Nat.add_comm (n + 2) 2)

theorem closing?_eq (offset : Nat) (cs : List Char) (hdepth : 0 < depth) :
    ∃ found, closing? depth (indices offset cs) = .ok found ∧
    found.getD (offset + byteLength cs) =
      offset + byteLength (cs.take (bracketedLength depth cs)) := by
  induction cs generalizing depth offset with
  | nil => exact ⟨none, rfl, rfl⟩
  | cons c cs ih =>
    have hnext : ∀ depth, 0 < depth → ∃ found,
        closing? depth (indices (offset + c.utf8Size) cs) = .ok found ∧
          found.getD (offset + byteLength (c :: cs)) =
            offset + byteLength ((c :: cs).take (1 + bracketedLength depth cs)) := by
      intro depth hdepth
      obtain ⟨found, hfound, hsize⟩ := ih (offset + c.utf8Size) hdepth
      refine ⟨found, hfound, ?_⟩
      rw [Nat.add_comm 1, List.take_succ_cons, byteLength, byteLength, ← Nat.add_assoc, hsize,
        Nat.add_assoc]
    rw [indices, closing?, bracketedLength]
    split
    next => exact hnext (depth + 1) (Nat.succ_pos depth)
    next =>
      split
      next hclose =>
        obtain rfl : c = ']' := by simpa using hclose
        rw [if_neg (by simpa using Nat.ne_of_gt hdepth)]
        by_cases hlast : depth ≤ 1
        · rw [if_pos hlast, if_pos (by simp; omega)]
          exact ⟨_, rfl, rfl⟩
        · rw [if_neg hlast, if_neg (by simp; omega)]
          exact hnext (depth - 1) (by omega)
      next => exact hnext depth hdepth

theorem attributeBytes_eq (cs : List Char) : attributeBytes ('#' :: '[' :: cs) =
    .ok (byteLength (('#' :: '[' :: cs).take (1 + bracketedLength 0 ('[' :: cs)))) := by
  have hlength : bracketedLength 0 ('[' :: cs) = 1 + bracketedLength 1 cs := rfl
  have hopen : closing? 0 ((indices 0 ('#' :: '[' :: cs)).drop 1) =
      closing? 1 (indices 2 cs) := rfl
  obtain ⟨found, hfound, hsize⟩ := closing?_eq 2 cs Nat.one_pos
  rw [attributeBytes, hopen, hfound, hlength, Nat.add_comm 1, Nat.add_comm 1, List.take_succ_cons,
    List.take_succ_cons, byteLength_cons_cons rfl rfl, byteLength_cons_cons rfl rfl, ← hsize]
  rfl

/-! Quoted text. -/

theorem unescaped?_eq (hquote : quote.utf8Size = 1) :
    unescaped? quote false (indices offset cs) =
      (quotedLength? quote cs).map fun n => offset + byteLength (cs.take n) := by
  fun_induction quotedLength? quote cs generalizing offset with
  | case1 => rfl
  | case2 => rfl
  | case3 d cs ih =>
    have hslash : ('\\' == '\\') = true := rfl
    rw [indices, indices, unescaped?, if_pos hslash, unescaped?, ih, Option.map_map]
    refine congrArg (Option.map · _) (funext fun n => ?_)
    simp only [Function.comp_apply, List.take_succ_cons, byteLength]
    omega
  | case4 c cs hsingle hpair hc =>
    obtain rfl : c = quote := by simpa using hc
    have hslash : ¬ (c == '\\') = true := by
      intro h
      cases cs with
      | nil => exact hsingle (by simpa using h) rfl
      | cons d cs => exact hpair d cs (by simpa using h) rfl
    rw [indices, unescaped?, if_neg hslash, if_pos (beq_self_eq_true c)]
    simp [byteLength, hquote]
  | case5 c cs hsingle hpair hc ih =>
    have hslash : ¬ (c == '\\') = true := by
      intro h
      cases cs with
      | nil => exact hsingle (by simpa using h) rfl
      | cons d cs => exact hpair d cs (by simpa using h) rfl
    rw [indices, unescaped?, if_neg hslash, if_neg hc, ih, Option.map_map]
    refine congrArg (Option.map · _) (funext fun n => ?_)
    simp only [Function.comp_apply, List.take_succ_cons, byteLength]
    omega

theorem quotedBytes?_eq (hquote : quote.utf8Size = 1) (rest : List Char) :
    quotedBytes? quote (quote :: rest) =
      (quotedLength? quote rest).map fun n => byteLength ((quote :: rest).take (1 + n)) := by
  have hrest : (indices 0 (quote :: rest)).drop 1 = indices 1 rest := by
    simp [indices, hquote]
  rw [quotedBytes?, hrest, unescaped?_eq hquote]
  refine congrArg (Option.map · _) (funext fun n => ?_)
  rw [Nat.add_comm 1 n, List.take_succ_cons, byteLength, hquote]

/-! Numbers, which are ASCII throughout. -/

/-- The text begins with `n` characters of one byte. -/
structure Narrow (n : Nat) (cs : List Char) : Prop where
  le : n ≤ cs.length
  size_eq : ∀ c ∈ cs.take n, c.utf8Size = 1

namespace Narrow

theorem zero (cs : List Char) : Narrow 0 cs := ⟨Nat.zero_le _, by simp⟩

theorem cons (hc : c.utf8Size = 1) (h : Narrow n cs) : Narrow (1 + n) (c :: cs) := by
  rw [Nat.add_comm 1]
  exact ⟨Nat.succ_le_succ h.le, List.forall_mem_cons.2 ⟨hc, h.size_eq⟩⟩

theorem add {m : Nat} (hn : Narrow n cs) (hm : Narrow m (cs.drop n)) : Narrow (n + m) cs := by
  have hle := hm.le
  rw [List.length_drop] at hle
  refine ⟨by have := hn.le; omega, fun c hc => ?_⟩
  rw [List.take_add, List.mem_append] at hc
  exact hc.elim (hn.size_eq c) (hm.size_eq c)

theorem succ (h : Narrow n cs) (hhead : (cs.drop n).head? = some d) (hd : d.utf8Size = 1) :
    Narrow (n + 1) cs := by
  obtain ⟨rest, hrest⟩ := List.head?_eq_some_iff.1 hhead
  exact h.add (hrest ▸ (zero rest).cons hd)

theorem takeWhile {p : Char → Bool} (hp : ∀ c, p c = true → c.utf8Size = 1) (cs : List Char) :
    Narrow (cs.takeWhile p).length cs := by
  refine ⟨length_takeWhile_le p cs, fun c hc => ?_⟩
  rw [take_length_takeWhile] at hc
  exact hp c (List.all_eq_true.1 List.all_takeWhile c hc)

theorem byteLength_take (h : Narrow n cs) : byteLength (cs.take n) = n := by
  rw [Text.byteLength_of_ascii h.size_eq, List.length_take_of_le h.le]

theorem behind_append (h : Narrow n rest) (front : List Char) :
    behind (byteLength front + n) (front ++ rest) = .ok (rest.drop n) := by
  have htake := Bytewise.behind_append (front ++ rest.take n) (rest.drop n)
  rwa [byteLength_append, h.byteLength_take, List.append_assoc, List.take_append_drop] at htake

theorem behind_eq (h : Narrow n cs) : behind n cs = .ok (cs.drop n) := by
  have h := h.behind_append []
  rwa [byteLength, Nat.zero_add] at h

end Narrow

theorem utf8Size_of_isDigit (h : c.isDigit = true) : c.utf8Size = 1 := by
  simp only [Char.isDigit, Bool.and_eq_true, decide_eq_true_eq, UInt32.le_iff_toNat_le] at h
  exact utf8Size_of_toNat_lt (Nat.lt_of_le_of_lt h.2 (by decide))

theorem utf8Size_of_isDigitPart (c : Char) (h : isDigitPart c = true) : c.utf8Size = 1 := by
  rcases Bool.or_eq_true_iff.1 h with h | h
  · exact utf8Size_of_isDigit h
  · rw [beq_iff_eq] at h
    exact h ▸ rfl

theorem utf8Size_of_isHexPart (c : Char) (h : isHexPart c = true) : c.utf8Size = 1 := by
  simp only [isHexPart, Bool.or_eq_true, Bool.and_eq_true, decide_eq_true_eq, beq_iff_eq] at h
  rcases h with ((h | h) | h) | rfl
  · exact utf8Size_of_isDigit h
  · exact utf8Size_of_toNat_lt (Nat.lt_of_le_of_lt (UInt32.le_iff_toNat_le.1 h.2) (by decide))
  · exact utf8Size_of_toNat_lt (Nat.lt_of_le_of_lt (UInt32.le_iff_toNat_le.1 h.2) (by decide))
  · rfl

theorem narrow_digitsLength (cs : List Char) : Narrow (digitsLength cs) cs :=
  .takeWhile utf8Size_of_isDigitPart cs

theorem runBytes_isDigitPart (cs : List Char) : runBytes isDigitPart cs = digitsLength cs := by
  have h := (narrow_digitsLength cs).byteLength_take
  rwa [digitsLength, take_length_takeWhile, ← runBytes_eq] at h

/-- Whether a point and a digit stand here. -/
def isPoint (cs : List Char) : Bool := cs.head? == some '.' && (cs.drop 1).head?.any Char.isDigit

theorem fractionLength_eq (cs : List Char) :
    fractionLength cs = if isPoint cs then 1 + digitsLength (cs.drop 1) else 0 := by
  rcases cs with _ | ⟨c, _ | ⟨d, cs⟩⟩
  · rfl
  · simp [fractionLength_singleton, isPoint]
  · rw [fractionLength_cons_cons]
    simp [isPoint]

theorem narrow_fractionLength (cs : List Char) : Narrow (fractionLength cs) cs := by
  rw [fractionLength_eq]
  split
  next hpoint =>
    obtain ⟨hhead, -⟩ := Bool.and_eq_true_iff.1 hpoint
    obtain ⟨rest, rfl⟩ := List.head?_eq_some_iff.1 (beq_iff_eq.1 hhead)
    exact .cons rfl (narrow_digitsLength rest)
  next => exact .zero cs

theorem narrow_signLength (cs : List Char) : Narrow (signLength cs) cs := by
  unfold signLength
  split
  next hsign =>
    obtain ⟨c, hc, hsign⟩ := Option.any_eq_true .. |>.1 hsign
    obtain ⟨rest, rfl⟩ := List.head?_eq_some_iff.1 hc
    refine .cons ?_ (.zero rest)
    rcases Bool.or_eq_true_iff.1 hsign with h | h <;> exact beq_iff_eq.1 h ▸ rfl
  next => exact .zero cs

theorem narrow_exponentLength (cs : List Char) : Narrow (exponentLength cs) cs := by
  cases cs with
  | nil => exact .zero []
  | cons e cs =>
    rw [exponentLength_cons]
    split
    next h =>
      rw [Nat.add_assoc]
      exact .cons (by rcases h.1 with rfl | rfl <;> rfl)
        ((narrow_signLength cs).add (narrow_digitsLength _))
    next => exact .zero _

theorem utf8Size_of_mem_bases (h : c ∈ ['x', 'X', 'b', 'B', 'o', 'O']) : c.utf8Size = 1 := by
  simp only [List.mem_cons, List.not_mem_nil, or_false] at h
  rcases h with rfl | rfl | rfl | rfl | rfl | rfl <;> rfl

theorem narrow_number (cs : List Char) : Narrow (Token.number cs).2 cs := by
  unfold Token.number
  split
  next hprefix =>
    obtain ⟨b, hb, after, -, rfl⟩ := exists_of_isBasePrefix hprefix
    have hdigits := Narrow.takeWhile utf8Size_of_isHexPart after
    have h := Narrow.cons (c := '0') rfl (.cons (utf8Size_of_mem_bases hb) hdigits)
    rwa [← Nat.add_assoc] at h
  next =>
    dsimp only
    exact ((narrow_digitsLength cs).add (narrow_fractionLength _)).add (narrow_exponentLength _)

/-- What is not a number but for a digit behind its point does not come up. -/
theorem mantissa_eq (h : 0 < digitsLength cs ∨ isPoint cs = true) : mantissa cs =
    .ok (if fractionLength (cs.drop (digitsLength cs)) = 0 then .intNumber else .floatNumber,
      digitsLength cs + fractionLength (cs.drop (digitsLength cs))) := by
  have hwhole := narrow_digitsLength cs
  have hnext := fun hhead => (hwhole.succ (d := '.') (beq_iff_eq.1 hhead) rfl).behind_eq
  have hpoint := followed_eq (p := Char.isDigit) hnext
  rw [mantissa, runBytes_isDigitPart, hwhole.behind_eq, bind_ok, hpoint, bind_ok, fractionLength_eq,
    isPoint, List.drop_drop]
  split
  next hdigit =>
    rw [hnext (Bool.and_eq_true_iff.1 hdigit).1, bind_ok, runBytes_isDigitPart, if_neg (by omega)]
    rfl
  next hdigit =>
    rw [if_pos rfl, if_neg ?_]
    · rfl
    intro hzero
    simp only [Bool.and_eq_true, beq_iff_eq] at hzero
    rw [hzero.1, List.drop_zero] at hdigit
    exact hdigit (h.resolve_left (by omega))

theorem exponentBytes_eq (cs : List Char) : exponentBytes cs = .ok (exponentLength cs) := by
  cases cs with
  | nil => rfl
  | cons e cs =>
    have hhead : ((e :: cs).head?.any fun c => c == 'e' || c == 'E') = true ↔ e = 'e' ∨ e = 'E' := by
      simp
    rw [exponentBytes, exponentLength_cons]
    by_cases he : e = 'e' ∨ e = 'E'
    · have hsize : e.utf8Size = 1 := by rcases he with rfl | rfl <;> rfl
      have hsign := ((narrow_signLength cs).cons hsize).behind_eq
      rw [Nat.add_comm 1, List.drop_succ_cons, Nat.add_comm _ 1] at hsign
      rw [if_pos (hhead.2 he), ((Narrow.zero cs).cons hsize).behind_eq, bind_ok]
      change (behind (1 + signLength cs) (e :: cs) >>= _) = _
      rw [hsign, bind_ok, runBytes_isDigitPart]
      change Except.ok (if _ then 1 + signLength cs + _ else 0) = _
      simp only [he, true_and, Nat.pos_iff_ne_zero]
    · rw [if_neg fun h => he (hhead.1 h), if_neg fun h => he h.1]
      rfl

theorem isBased_eq (cs : List Char) : isBased cs = isBasePrefix cs := by
  unfold isBased
  split
  next b cs =>
    cases hb : ['x', 'X', 'b', 'B', 'o', 'O'].contains b with
    | false => cases cs <;> simp only [isBasePrefix, hb, Bool.and_false]
    | true =>
      have hsize := utf8Size_of_mem_bases (List.contains_iff_mem.1 hb)
      rw [Bool.and_true, byteLength_cons_cons (show '0'.utf8Size = 1 from rfl) hsize]
      cases cs with
      | nil => rfl
      | cons c cs =>
        have hpos := byteLength_pos (List.cons_ne_nil c cs)
        simp only [isBasePrefix, hb, decide_eq_true_eq]
        omega
  next hother =>
    unfold isBasePrefix
    split
    next b c cs => exact absurd rfl (hother b (c :: cs))
    next => rfl

theorem number_eq (h : 0 < digitsLength cs ∨ isPoint cs = true) :
    number cs = .ok (Token.number cs) := by
  rw [number, isBased_eq, Token.number]
  split
  next hprefix =>
    obtain ⟨b, hb, after, -, rfl⟩ := exists_of_isBasePrefix hprefix
    have hsize := utf8Size_of_mem_bases hb
    have hfront : Narrow 2 ('0' :: b :: after) := .cons rfl (.cons hsize (.zero after))
    have hrun : (find? (fun c => !isHexPart c) after).getD (byteLength after) =
        (after.takeWhile isHexPart).length := by
      have hdigits := (Narrow.takeWhile utf8Size_of_isHexPart after).byteLength_take
      rwa [take_length_takeWhile, ← runBytes_eq] at hdigits
    rw [hfront.behind_eq, bind_ok, byteLength_cons_cons rfl hsize, Nat.add_sub_cancel_left]
    exact congrArg (fun n => Except.ok (Kind.intNumber, 2 + n)) hrun
  next =>
    have hsize := (narrow_digitsLength cs).add (narrow_fractionLength _)
    rw [mantissa_eq h, bind_ok]
    dsimp only
    rw [hsize.behind_eq, bind_ok, exponentBytes_eq, bind_ok]
    generalize exponentLength _ = exponent
    generalize fractionLength _ = fraction
    by_cases hexponent : exponent = 0
    · simp [hexponent]
      rfl
    · simp [hexponent, Nat.pos_iff_ne_zero]
      rfl

/-! Names. -/

theorem qualifiedLength_append (hfront : ∀ c ∈ front, isNamePart c = true) (rest : List Char) :
    qualifiedLength (front ++ rest) = front.length + qualifiedLength rest := by
  induction front with
  | nil => simp
  | cons c front ih =>
    rw [List.forall_mem_cons] at hfront
    cases hcs : front ++ rest with
    | nil =>
      obtain ⟨rfl, rfl⟩ := List.append_eq_nil_iff.1 hcs
      simp [qualifiedLength, hfront.1]
    | cons d cs =>
      rw [List.cons_append, hcs, qualifiedLength, hfront.1, Bool.true_or, if_pos rfl, ← hcs,
        ih hfront.2, List.length_cons]
      omega

/-- A separator and a name stand here. -/
def isSeparator (cs : List Char) : Bool :=
  cs.head? == some '\\' && (cs.drop 1).head?.any isNameStart

theorem loop_of_next {σ α : Type} {limit : Nat} {pos : σ → Nat}
    {body : σ → Except Misstep (σ ⊕ α)} {s next : σ} (hbody : body s = .ok (.inl next))
    (hpos : pos s < pos next) (hle : pos next ≤ limit) :
    loop limit pos body s = loop limit pos body next := by
  rw [loop, hbody]
  exact if_pos ⟨hpos, hle⟩

theorem loop_of_result {σ α : Type} {limit : Nat} {pos : σ → Nat}
    {body : σ → Except Misstep (σ ⊕ α)} {s : σ} {result : α} (hbody : body s = .ok (.inr result)) :
    loop limit pos body s = .ok result := by
  rw [loop, hbody]

theorem loop_of_error {σ α : Type} {limit : Nat} {pos : σ → Nat}
    {body : σ → Except Misstep (σ ⊕ α)} {s : σ} {misstep : Misstep}
    (hbody : body s = .error misstep) : loop limit pos body s = .error misstep := by
  rw [loop, hbody]

theorem followed_separator (cs : List Char) :
    followed (cs.head? == some '\\') 1 isNameStart cs = .ok (isSeparator cs) :=
  followed_eq fun hhead => ((Narrow.zero cs).succ (beq_iff_eq.1 hhead) rfl).behind_eq

theorem qualifiedStep_of_separator (front : List Char) (h : isSeparator rest = true) :
    qualifiedStep (front ++ rest) (byteLength front) = .ok (.inl (byteLength front + 1)) := by
  rw [qualifiedStep, behind_append, bind_ok, followed_separator, h]
  rfl

theorem qualifiedStep_of_name (front rest : List Char) (hc : isNameStart c = true) :
    let name := (c :: rest).takeWhile isNamePart
    let more := (c :: rest).dropWhile isNamePart
    qualifiedStep (front ++ c :: rest) (byteLength front) =
      .ok (if isSeparator more then .inl (byteLength (front ++ name))
        else .inr (byteLength (front ++ name))) := by
  intro name more
  have hsplit : front ++ c :: rest = front ++ name ++ more := by
    rw [List.append_assoc, List.takeWhile_append_dropWhile]
  have hnone : isSeparator (c :: rest) = false := by
    have hne : c ≠ '\\' := ne_of_class hc rfl
    simp [isSeparator, hne]
  have hsize : nameBytes (c :: rest) = byteLength name := by
    rw [nameBytes, List.head?_cons, Option.any_some, if_pos hc, runBytes_eq]
  have hname : name ≠ [] := List.ne_nil_of_length_pos
    (length_takeWhile_pos (isNamePart_of_isNameStart hc))
  have hahead : followed (more.head? == some '\\') (byteLength (front ++ name) + 1) isNameStart
      (front ++ c :: rest) = .ok (isSeparator more) := by
    refine followed_eq fun hhead => ?_
    obtain ⟨after, hafter⟩ := List.head?_eq_some_iff.1 (beq_iff_eq.1 hhead)
    rw [hsplit, hafter]
    exact ((Narrow.zero after).cons rfl).behind_append (front ++ name)
  rw [qualifiedStep, behind_append, bind_ok, followed_separator, hnone, bind_ok, hsize]
  simp only [Bool.false_eq_true, if_false, beq_iff_eq, (byteLength_pos hname).ne',
    ← byteLength_append]
  rw [hsplit, behind_append, bind_ok, ← hsplit, hahead, bind_ok]
  cases isSeparator more <;> rfl

theorem qualifiedLength_eq_zero (hhead : rest.head?.any isNamePart = false)
    (hnone : isSeparator rest = false) : qualifiedLength rest = 0 := by
  rcases rest with _ | ⟨c, _ | ⟨d, rest⟩⟩
  · rfl
  · simp_all [qualifiedLength]
  · simp_all [qualifiedLength, isSeparator]

theorem head?_dropWhile (p : Char → Bool) (cs : List Char) :
    (cs.dropWhile p).head?.any p = false := by
  have h := List.head?_dropWhile_not p cs
  cases hhead : (cs.dropWhile p).head? with
  | none => rfl
  | some c =>
    rw [hhead] at h
    exact h

theorem qualifiedLength_separator (h : rest.head?.any isNameStart = true) :
    qualifiedLength ('\\' :: rest) = 1 + qualifiedLength rest := by
  cases rest with
  | nil => cases h
  | cons d rest => rw [qualifiedLength, if_pos (by simpa using .inr h)]

theorem qualified_loop (front : List Char)
    (h : rest.head?.any isNameStart = true ∨ isSeparator rest = true) :
    loop (byteLength (front ++ rest)) id (qualifiedStep (front ++ rest)) (byteLength front) =
      .ok (byteLength (front ++ rest.take (qualifiedLength rest))) := by
  induction hlen : rest.length using Nat.strong_induction_on generalizing front rest with
  | _ size ih =>
  by_cases hsep : isSeparator rest = true
  · have hstep := qualifiedStep_of_separator front hsep
    simp only [isSeparator, Bool.and_eq_true, beq_iff_eq] at hsep
    obtain ⟨rest, rfl⟩ := List.head?_eq_some_iff.1 hsep.1
    have hstart : rest.head?.any isNameStart = true := hsep.2
    have hnext : byteLength (front ++ ['\\']) = byteLength front + 1 := byteLength_append ..
    have htext : front ++ '\\' :: rest = front ++ ['\\'] ++ rest := List.append_cons ..
    rw [htext, ← hnext] at hstep
    rw [htext, loop_of_next hstep (by simp [hnext]) (byteLength_le_append _ rest),
      ih rest.length (by simp [← hlen]) _ (.inl hstart) rfl,
      qualifiedLength_separator hstart, Nat.add_comm 1,
      List.take_succ_cons, List.append_assoc, List.singleton_append]
  · have hstart := h.resolve_right hsep
    obtain ⟨c, hc, hname⟩ := (Option.any_eq_true ..).1 hstart
    obtain ⟨rest, rfl⟩ := List.head?_eq_some_iff.1 hc
    have hstep := qualifiedStep_of_name front rest hname
    have hsplit := List.takeWhile_append_dropWhile (p := isNamePart) (l := c :: rest)
    have hparts : ∀ d ∈ (c :: rest).takeWhile isNamePart, isNamePart d = true :=
      List.all_eq_true.1 List.all_takeWhile
    have hpos : 0 < ((c :: rest).takeWhile isNamePart).length :=
      length_takeWhile_pos (isNamePart_of_isNameStart hname)
    have hlength := qualifiedLength_append hparts ((c :: rest).dropWhile isNamePart)
    have hhead := head?_dropWhile isNamePart (c :: rest)
    rw [hsplit] at hlength
    have hleft := congrArg List.length hsplit
    rw [List.length_append] at hleft
    dsimp only at hstep
    generalize (c :: rest).takeWhile isNamePart = name at *
    generalize (c :: rest).dropWhile isNamePart = more at *
    rw [hlength, ← hsplit, List.take_length_add_append, ← List.append_assoc]
    rw [← hsplit, ← List.append_assoc] at hstep
    split at hstep
    next hmore =>
      have hfar := byteLength_lt_append front (List.ne_nil_of_length_pos hpos)
      rw [loop_of_next hstep hfar (byteLength_le_append _ more),
        ih more.length (by omega) _ (.inr hmore) rfl, List.append_assoc]
    next hmore =>
      rw [loop_of_result hstep, qualifiedLength_eq_zero hhead (by simpa using hmore),
        List.take_zero, List.append_nil]

theorem qualifiedBytes_eq (h : cs.head?.any isNameStart = true ∨ isSeparator cs = true) :
    qualifiedBytes cs = .ok (byteLength (cs.take (qualifiedLength cs))) :=
  qualified_loop [] h

end PhpLint.Token.Bytewise
