import PhpLint.Proofs.Token.Bytewise

/-! What is taken for a heredoc: a label behind `<<<`, perhaps in quotes, and lines up to the first
that begins with the label. The quote in front of the label counts, the one behind it does not: any
character may stand there, the end of the line as well. -/

namespace PhpLint.Token

namespace Heredoc

variable {label line cs rest front behind : List Char} {n : Nat}

structure IsLabel (label : List Char) : Prop where
  start : label.head?.any isNameStart = true
  parts : ∀ c ∈ label, isNamePart c = true

/-- A line that begins, behind blanks, with the label, which no character carries on. -/
def Marks (label line : List Char) : Prop :=
  ∃ indent behind, line = indent ++ (label ++ behind) ∧ (∀ c ∈ indent, isIndent c = true) ∧
    behind.head?.any isNamePart = false

/-- Lines through the label that closes them, and what stands behind. The first line that begins
with the label is the last. -/
inductive Closes (label : List Char) : List Char → List Char → Prop where
  | here {indent behind : List Char} (hindent : ∀ c ∈ indent, isIndent c = true)
      (hbehind : behind.head?.any isNamePart = false) : Closes label (indent ++ label) behind
  | later {line front behind : List Char} (hline : '\n' ∉ line) (hopen : ¬ Marks label line)
      (h : Closes label front behind) : Closes label (line ++ '\n' :: front) behind

theorem isIndent_of_isNamePart {c : Char} (h : isNamePart c = true) : isIndent c = false := by
  have hspace : c ≠ ' ' := ne_of_class h (by decide)
  have htab : c ≠ '\t' := ne_of_class h (by decide)
  simp [isIndent, hspace, htab]

theorem IsLabel.exists_cons (h : IsLabel label) :
    ∃ c name, label = c :: name ∧ isNameStart c = true := by
  obtain ⟨c, hc, hstart⟩ := (Option.any_eq_true ..).1 h.start
  obtain ⟨name, rfl⟩ := List.head?_eq_some_iff.1 hc
  exact ⟨c, name, rfl, hstart⟩

/-- Blanks end where a label begins. -/
theorem IsLabel.span_indent (h : IsLabel label) {indent : List Char}
    (hindent : ∀ c ∈ indent, isIndent c = true) (behind : List Char) :
    (indent ++ (label ++ behind)).takeWhile isIndent = indent ∧
      (indent ++ (label ++ behind)).dropWhile isIndent = label ++ behind := by
  obtain ⟨c, name, rfl, hstart⟩ := h.exists_cons
  have hc := isIndent_of_isNamePart (isNamePart_of_isNameStart hstart)
  rw [List.cons_append, takeWhile_append_cons hc, dropWhile_append_cons hc,
    List.takeWhile_eq_self_iff.2 hindent, List.dropWhile_eq_nil_iff.2 hindent]
  exact ⟨rfl, rfl⟩

theorem markerLength?_eq_some_iff_of_isLabel (h : IsLabel label) :
    markerLength? label cs = some n ↔ ∃ indent behind, cs = indent ++ (label ++ behind) ∧
      (∀ c ∈ indent, isIndent c = true) ∧ behind.head?.any isNamePart = false ∧
        n = (indent ++ label).length := by
  rw [markerLength?_eq_some_iff]
  constructor
  · rintro ⟨behind, hbody, hbehind, rfl⟩
    refine ⟨cs.takeWhile isIndent, behind, ?_, List.all_eq_true.1 List.all_takeWhile, hbehind,
      List.length_append.symm⟩
    rw [← hbody, List.takeWhile_append_dropWhile]
  · rintro ⟨indent, behind, rfl, hindent, hbehind, rfl⟩
    obtain ⟨htake, hdrop⟩ := h.span_indent hindent behind
    exact ⟨behind, hdrop, hbehind, by rw [htake, List.length_append]⟩

theorem markerLength?_eq_none_iff (h : IsLabel label) :
    markerLength? label line = none ↔ ¬ Marks label line := by
  rw [Option.eq_none_iff_forall_ne_some]
  constructor
  · rintro hnone ⟨indent, behind, hline, hindent, hbehind⟩
    exact hnone _ ((markerLength?_eq_some_iff_of_isLabel h).2
      ⟨indent, behind, hline, hindent, hbehind, rfl⟩)
  · rintro hopen n hn
    obtain ⟨indent, behind, hline, hindent, hbehind, -⟩ :=
      (markerLength?_eq_some_iff_of_isLabel h).1 hn
    exact hopen ⟨indent, behind, hline, hindent, hbehind⟩

theorem Closes.endLength?_eq (hlabel : IsLabel label) (h : Closes label front behind) :
    endLength? label (front ++ behind) = some front.length := by
  induction h with
  | @here indent behind hindent hbehind =>
    have hmarker := (markerLength?_eq_some_iff_of_isLabel hlabel).2
      ⟨indent, behind, rfl, hindent, hbehind, rfl⟩
    rw [endLength?, List.append_assoc, hmarker, Option.some_or]
  | @later line front behind hline hopen _ ih =>
    rw [endLength?, List.append_assoc, List.cons_append, markerLength?_line hlabel.parts,
      (markerLength?_eq_none_iff hlabel).2 hopen, Option.none_or, bodyLength?_line hline, ih]
    simp
    omega

theorem exists_closes (hlabel : IsLabel label) (h : endLength? label cs = some n) :
    ∃ front behind, cs = front ++ behind ∧ Closes label front behind ∧ n = front.length := by
  induction hlen : cs.length using Nat.strong_induction_on generalizing cs n with
  | _ size ih =>
  rw [endLength?] at h
  rcases Option.or_eq_some_iff.1 h with hmarker | ⟨hnone, hbody⟩
  · obtain ⟨indent, behind, rfl, hindent, hbehind, rfl⟩ :=
      (markerLength?_eq_some_iff_of_isLabel hlabel).1 hmarker
    exact ⟨indent ++ label, behind, by simp, .here hindent hbehind, rfl⟩
  · obtain ⟨line, tail, rfl, hline, htail⟩ := Bytewise.exists_line cs
    rcases htail with rfl | ⟨more, rfl⟩
    · rw [List.append_nil, bodyLength?_eq_none hline] at hbody
      cases hbody
    · rw [bodyLength?_line hline] at hbody
      obtain ⟨m, hm, rfl⟩ := Option.map_eq_some_iff.1 hbody
      obtain ⟨front, behind, rfl, hcloses, rfl⟩ :=
        ih more.length (by simp [← hlen]; omega) hm rfl
      rw [markerLength?_line hlabel.parts, markerLength?_eq_none_iff hlabel] at hnone
      refine ⟨line ++ '\n' :: front, behind, by simp, .later hline hnone hcloses, ?_⟩
      simp
      omega

/-- From the label on, the rest of its line is passed over. -/
theorem bodyLength?_eq_some_iff (hlabel : IsLabel label) : bodyLength? label rest = some n ↔
    ∃ line front behind, rest = line ++ '\n' :: (front ++ behind) ∧ '\n' ∉ line ∧
      Closes label front behind ∧ n + behind.length = rest.length := by
  constructor
  · intro h
    obtain ⟨line, tail, rfl, hline, htail⟩ := Bytewise.exists_line rest
    rcases htail with rfl | ⟨more, rfl⟩
    · rw [List.append_nil, bodyLength?_eq_none hline] at h
      cases h
    · rw [bodyLength?_line hline] at h
      obtain ⟨m, hm, rfl⟩ := Option.map_eq_some_iff.1 h
      obtain ⟨front, behind, rfl, hcloses, rfl⟩ := exists_closes hlabel hm
      exact ⟨line, front, behind, rfl, hline, hcloses, by simp; omega⟩
  · rintro ⟨line, front, behind, rfl, hline, hcloses, hn⟩
    rw [bodyLength?_line hline, hcloses.endLength?_eq hlabel, Option.map_some, Option.some_inj]
    simp at hn
    omega

theorem nameLength_append (hlabel : IsLabel label) (hrest : rest.head?.any isNamePart = false) :
    nameLength (label ++ rest) = label.length := by
  have hrun : (label ++ rest).takeWhile isNamePart = label := by
    cases rest with
    | nil => rw [List.append_nil, List.takeWhile_eq_self_iff.2 hlabel.parts]
    | cons d rest => rw [takeWhile_append_cons hrest, List.takeWhile_eq_self_iff.2 hlabel.parts]
  obtain ⟨c, name, rfl, hstart⟩ := hlabel.exists_cons
  rw [List.cons_append] at hrun ⊢
  rw [nameLength, if_pos hstart, hrun]

theorem exists_label (h : nameLength cs ≠ 0) : ∃ label rest, cs = label ++ rest ∧ IsLabel label ∧
    rest.head?.any isNamePart = false := by
  cases cs with
  | nil => exact absurd rfl h
  | cons c cs =>
    rw [nameLength] at h
    split at h
    next hstart =>
      have hrest := Bytewise.head?_dropWhile isNamePart (c :: cs)
      refine ⟨(c :: cs).takeWhile isNamePart, (c :: cs).dropWhile isNamePart,
        List.takeWhile_append_dropWhile.symm, ⟨?_, List.all_eq_true.1 List.all_takeWhile⟩, hrest⟩
      rw [List.takeWhile_cons_of_pos (isNamePart_of_isNameStart hstart)]
      exact hstart
    next => exact absurd rfl h

/-- What stands around a label: nothing, or a quote in front and any character behind. -/
inductive Enclosure where
  | bare
  | quoted (quote second : Char) (hquote : quote = '\x27' ∨ quote = '\x22')

namespace Enclosure

def before : Enclosure → List Char
  | bare => []
  | quoted quote _ _ => [quote]

def after : Enclosure → List Char
  | bare => []
  | quoted _ second _ => [second]

/-- The quote is the same on both sides. -/
def IsPair (e : Enclosure) : Prop := e.after = e.before

theorem length_after (e : Enclosure) : e.after.length = e.before.length := by cases e <;> rfl

end Enclosure

/-- The text behind `<<<`: blanks, a label with what stands around it, and the rest. -/
structure Opens (e : Enclosure) (blanks label rest cs : List Char) : Prop where
  text_eq : cs = blanks ++ (e.before ++ (label ++ (e.after ++ rest)))
  blank : ∀ c ∈ blanks, isIndent c = true
  isLabel : IsLabel label
  whole : (e.after ++ rest).head?.any isNamePart = false

namespace Opens

variable {e : Enclosure} {blanks : List Char}

theorem span_indent (h : Opens e blanks label rest cs) :
    cs.takeWhile isIndent = blanks ∧
      cs.dropWhile isIndent = e.before ++ (label ++ (e.after ++ rest)) := by
  obtain ⟨rfl, hblank, hlabel, -⟩ := h
  cases e with
  | bare => exact hlabel.span_indent hblank rest
  | quoted quote second hquote =>
    have hopen : isIndent quote = false := by rcases hquote with rfl | rfl <;> rfl
    simp only [Enclosure.before, List.cons_append, List.nil_append]
    rw [takeWhile_append_cons hopen, dropWhile_append_cons hopen,
      List.takeWhile_eq_self_iff.2 hblank, List.dropWhile_eq_nil_iff.2 hblank]
    exact ⟨rfl, rfl⟩

theorem quoteLength_eq (h : Opens e blanks label rest cs) :
    quoteLength (cs.dropWhile isIndent) = e.before.length := by
  rw [h.span_indent.2]
  cases e with
  | bare =>
    obtain ⟨c, name, rfl, hstart⟩ := h.isLabel.exists_cons
    have hsingle : c ≠ '\x27' := ne_of_class hstart (by decide)
    have hdouble : c ≠ '\x22' := ne_of_class hstart (by decide)
    simp [quoteLength, Enclosure.before, hsingle, hdouble]
  | quoted quote second hquote => simp [quoteLength, Enclosure.before, hquote]

theorem lengthAfter?_eq (h : Opens e blanks label rest cs) : lengthAfter? cs =
    .ok ((bodyLength? label rest).map fun m =>
      3 + (blanks.length + e.before.length + label.length + e.before.length) + m) := by
  obtain ⟨htake, hdrop⟩ := h.span_indent
  have hquote := h.quoteLength_eq
  have hname := nameLength_append h.isLabel h.whole
  have hpos : label.length ≠ 0 := by
    obtain ⟨c, name, rfl, -⟩ := h.isLabel.exists_cons
    simp
  rw [Heredoc.lengthAfter?_eq, hquote, htake, hdrop]
  dsimp only
  rw [List.drop_left, hname, if_neg hpos, List.drop_left, List.take_left,
    if_neg (by simp [e.length_after]), ← e.length_after, List.drop_left]

theorem unique {e' : Enclosure} {blanks' label' rest' : List Char}
    (h : Opens e blanks label rest cs) (h' : Opens e' blanks' label' rest' cs) : e = e' := by
  have htext := h.span_indent.2.symm.trans h'.span_indent.2
  have hlength := h.quoteLength_eq.symm.trans h'.quoteLength_eq
  have hname := nameLength_append h.isLabel h.whole
  have hname' := nameLength_append h'.isLabel h'.whole
  cases e <;> cases e'
  case bare.bare => rfl
  case quoted.quoted quote second hquote quote' second' hquote' =>
    simp only [Enclosure.before, Enclosure.after, List.cons_append, List.nil_append,
      List.cons.injEq] at htext hname hname'
    rw [htext.2, hname'] at hname
    have hrest := List.append_inj_right htext.2 hname.symm
    obtain rfl := htext.1
    obtain rfl := (List.cons.inj hrest).1
    rfl
  all_goals simp [Enclosure.before] at hlength

end Opens

theorem exists_opens (h : lengthAfter? cs = .ok (some n)) :
    ∃ e blanks label rest, Opens e blanks label rest cs := by
  rw [lengthAfter?_eq_some_iff] at h
  obtain ⟨hname, hroom, -⟩ := h
  have hcs := List.takeWhile_append_dropWhile (p := isIndent) (l := cs)
  have hblank : ∀ c ∈ cs.takeWhile isIndent, isIndent c = true :=
    List.all_eq_true.1 List.all_takeWhile
  generalize cs.dropWhile isIndent = head at *
  generalize cs.takeWhile isIndent = blanks at *
  obtain ⟨label, after, hnamed, hlabel, hwhole⟩ := exists_label hname
  rw [hnamed, nameLength_append hlabel hwhole, List.drop_left] at hroom
  rcases head with _ | ⟨quote, named⟩
  · simp [nameLength] at hname
  by_cases hquote : quote = '\x27' ∨ quote = '\x22'
  · have hone : quoteLength (quote :: named) = 1 := by simp [quoteLength, hquote]
    rw [hone] at hnamed hroom
    obtain ⟨second, rest, rfl⟩ := List.exists_cons_of_length_pos hroom
    exact ⟨.quoted quote second hquote, blanks, label, rest,
      by rw [← hcs]; simpa [Enclosure.before, Enclosure.after] using hnamed, hblank, hlabel, hwhole⟩
  · have hzero : quoteLength (quote :: named) = 0 := by simpa [quoteLength] using hquote
    rw [hzero] at hnamed
    exact ⟨.bare, blanks, label, after, hcs ▸ congrArg (blanks ++ ·) hnamed, hblank, hlabel, hwhole⟩

/-- A heredoc, and what stands behind it. The label begins behind blanks and is a whole name, what
follows in its line is free, and the lines below are those that the label closes. -/
inductive Spells (e : Enclosure) : List Char → List Char → Prop where
  | intro {blanks label line lines behind : List Char} (hblank : ∀ c ∈ blanks, isIndent c = true)
      (hlabel : IsLabel label) (hwhole : (e.after ++ line).head?.any isNamePart = false)
      (hline : '\n' ∉ line) (hcloses : Closes label lines behind) :
      Spells e ('<' :: '<' :: '<' ::
        (blanks ++ (e.before ++ (label ++ (e.after ++ (line ++ '\n' :: lines)))))) behind

variable {e e' : Enclosure}

/-- The label is as whole before the end of its line as it is before more of it. -/
theorem whole_append_newline (e : Enclosure) (line more : List Char) :
    (e.after ++ (line ++ '\n' :: more)).head?.any isNamePart =
      (e.after ++ line).head?.any isNamePart := by
  rw [← List.append_assoc]
  cases e.after ++ line <;> rfl

theorem exists_opens_of_spells (h : Spells e front behind) :
    ∃ blanks label rest cs, front ++ behind = '<' :: '<' :: '<' :: cs ∧
      Opens e blanks label rest cs ∧ lengthAfter? cs = .ok (some front.length) := by
  obtain @⟨blanks, label, line, lines, _, hblank, hlabel, hwhole, hline, hcloses⟩ := h
  have hopens : Opens e blanks label (line ++ '\n' :: (lines ++ behind)) _ :=
    ⟨rfl, hblank, hlabel, by rwa [whole_append_newline]⟩
  refine ⟨_, _, _, _, by simp, hopens, ?_⟩
  rw [hopens.lengthAfter?_eq, (bodyLength?_eq_some_iff hlabel).2
    ⟨line, lines, behind, rfl, hline, hcloses, Nat.sub_add_cancel (by simp; omega)⟩]
  simp [e.length_after]
  omega

/-- The heredocs are the texts that are measured as such. -/
theorem lengthAfter?_eq_some_iff_spells : lengthAfter? cs = .ok (some n) ↔
    ∃ e front behind, '<' :: '<' :: '<' :: cs = front ++ behind ∧ Spells e front behind ∧
      n = front.length := by
  constructor
  · intro h
    obtain ⟨e, blanks, label, rest, hopens⟩ := exists_opens h
    rw [hopens.lengthAfter?_eq] at h
    obtain ⟨m, hm, rfl⟩ := Option.map_eq_some_iff.1 (Except.ok.inj h)
    obtain ⟨line, lines, behind, rfl, hline, hcloses, hlength⟩ :=
      (bodyLength?_eq_some_iff hopens.isLabel).1 hm
    have hwhole := hopens.whole
    rw [whole_append_newline] at hwhole
    refine ⟨e, _, behind, ?_, .intro hopens.blank hopens.isLabel hwhole hline hcloses, ?_⟩
    · rw [hopens.text_eq]
      simp
    · simp [e.length_after] at hlength ⊢
      omega
  · rintro ⟨e, front, behind, htext, hspells, rfl⟩
    obtain ⟨_, _, _, _, hcs, -, hlength⟩ := exists_opens_of_spells hspells
    rw [← htext] at hcs
    simp only [List.cons.injEq, true_and] at hcs
    rwa [hcs]

/-- What stands around the label is read off the text. -/
theorem Spells.unique {front' behind' : List Char} (h : Spells e front behind)
    (h' : Spells e' front' behind') (htext : front ++ behind = front' ++ behind') : e = e' := by
  obtain ⟨_, _, _, _, hcs, hopens, -⟩ := exists_opens_of_spells h
  obtain ⟨_, _, _, _, hcs', hopens', -⟩ := exists_opens_of_spells h'
  rw [hcs, hcs'] at htext
  simp only [List.cons.injEq, true_and] at htext
  exact hopens.unique (htext ▸ hopens')

end Heredoc

namespace Bytewise

open Text (byteLength)
open Heredoc (Enclosure Spells)

/-- The first `n` bytes of the text are a heredoc. -/
def HeredocAt (e : Enclosure) (text : List Char) (n : Nat) : Prop :=
  ∃ front behind, text = front ++ behind ∧ Spells e front behind ∧ n = byteLength front

theorem heredocBytes?_eq_some_iff (cs : List Char) (n : Nat) :
    heredocBytes? ('<' :: '<' :: '<' :: cs) = .ok (some n) ↔
      ∃ e, HeredocAt e ('<' :: '<' :: '<' :: cs) n := by
  rw [heredocBytes?_eq]
  constructor
  · intro h
    cases hfound : Heredoc.lengthAfter? cs with
    | error fault =>
      rw [hfound] at h
      cases h
    | ok found =>
      rw [hfound] at h
      obtain ⟨m, rfl, rfl⟩ := Option.map_eq_some_iff.1 (Except.ok.inj h)
      obtain ⟨e, front, behind, htext, hspells, rfl⟩ :=
        Heredoc.lengthAfter?_eq_some_iff_spells.1 hfound
      exact ⟨e, front, behind, htext, hspells, by rw [htext, List.take_left]⟩
  · rintro ⟨e, front, behind, htext, hspells, rfl⟩
    rw [Heredoc.lengthAfter?_eq_some_iff_spells.2 ⟨e, front, behind, htext, hspells, rfl⟩]
    dsimp only
    rw [Option.map_some, htext, List.take_left]

/-- A heredoc is recognised, and its end found, whatever stands behind the label in the place of the
second quote; and only those in quotes of one kind, exactly where the text has no other. -/
theorem heredocBytes?_some_iff_heredocAt (cs : List Char) :
    (∀ n, heredocBytes? ('<' :: '<' :: '<' :: cs) = .ok (some n) ↔
      ∃ e, HeredocAt e ('<' :: '<' :: '<' :: cs) n) ∧
    ((∀ n, heredocBytes? ('<' :: '<' :: '<' :: cs) = .ok (some n) ↔
        ∃ e : Enclosure, e.IsPair ∧ HeredocAt e ('<' :: '<' :: '<' :: cs) n) ↔
      ∀ e n, HeredocAt e ('<' :: '<' :: '<' :: cs) n → e.IsPair) := by
  have hany := heredocBytes?_eq_some_iff cs
  refine ⟨hany, fun hpair e n hat => ?_, fun hpair n => ?_⟩
  · obtain ⟨e', hsame, hat'⟩ := (hpair n).1 ((hany n).2 ⟨e, hat⟩)
    obtain ⟨front, behind, htext, hspells, -⟩ := hat
    obtain ⟨front', behind', htext', hspells', -⟩ := hat'
    exact hspells.unique hspells' (htext ▸ htext') ▸ hsame
  · rw [hany n]
    exact ⟨fun ⟨e, hat⟩ => ⟨e, hpair e n hat, hat⟩, fun ⟨e, _, hat⟩ => ⟨e, hat⟩⟩

/-- A label between two different quotes. -/
theorem exists_heredoc_of_unequal_quotes : ∃ cs n,
    heredocBytes? ('<' :: '<' :: '<' :: cs) = .ok (some n) ∧
      ¬ ∃ e : Enclosure, e.IsPair ∧ HeredocAt e ('<' :: '<' :: '<' :: cs) n := by
  have hspells : Spells (.quoted '\x22' '\x27' (.inr rfl))
      ['<', '<', '<', '\x22', 'A', '\x27', '\n', 'A'] [] :=
    @Spells.intro _ [] ['A'] [] ['A'] [] (by simp) ⟨rfl, List.forall_mem_singleton.2 rfl⟩ rfl
      (by simp) (@Heredoc.Closes.here ['A'] [] [] (by simp) rfl)
  refine ⟨['\x22', 'A', '\x27', '\n', 'A'], 8, by decide +kernel, ?_⟩
  rintro ⟨e, hpair, front, behind, htext, hother, -⟩
  obtain rfl := hspells.unique hother htext
  exact absurd hpair (by simp [Enclosure.IsPair, Enclosure.after, Enclosure.before])

end Bytewise

end PhpLint.Token
