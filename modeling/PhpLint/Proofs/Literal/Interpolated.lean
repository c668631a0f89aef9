import PhpLint.Proofs.Literal.Quoted

/-! Variables inside of strings. In double quotes a dollar before a name or a brace puts a value in,
unless a backslash escapes it; in single quotes it is a dollar. Reading a string keeps every such
dollar and forgets whether it was escaped, so that strings which agree have equally many of them. -/

namespace PhpLint.Literal

variable {quote c : Char} {cs : List Char} {text : String}

/-- What a dollar makes a variable of: the start of a name, or a brace. -/
def opensVariable (c : Char) : Bool := Token.isNameStart c || c == '\x7b'

/-- One if the text begins with a dollar before a variable. -/
def dollarHere : List Char → Nat
  | [] => 0
  | c :: cs => if c == '$' && cs.head?.any opensVariable then 1 else 0

/-- Dollars before a variable, escaped or not. -/
def dollars : List Char → Nat
  | [] => 0
  | c :: cs => dollarHere (c :: cs) + dollars cs

/-- Those of them that stand outside of escape sequences. -/
def liveDollars : List Char → Nat
  | [] => 0
  | ['\\'] => 0
  | '\\' :: _ :: cs => liveDollars cs
  | c :: cs => dollarHere (c :: cs) + liveDollars cs

/-- Those of them that a backslash escapes. -/
def escapedDollars : List Char → Nat
  | [] => 0
  | ['\\'] => 0
  | '\\' :: c :: cs => dollarHere (c :: cs) + escapedDollars cs
  | _ :: cs => escapedDollars cs

theorem dollarHere_of_ne (hc : c ≠ '$') (cs : List Char) : dollarHere (c :: cs) = 0 := by
  simp [dollarHere, hc]

theorem dollarHere_backslash (cs : List Char) : dollarHere ('\\' :: cs) = 0 :=
  dollarHere_of_ne (by decide) cs

theorem dollarHere_congr {d : Char} {ds : List Char} (hc : c = '$' ↔ d = '$')
    (hhead : cs.head?.any opensVariable = ds.head?.any opensVariable) :
    dollarHere (c :: cs) = dollarHere (d :: ds) := by
  simp [dollarHere, hc, hhead]

theorem escapedDollars_cons (hc : c ≠ '\\') (cs : List Char) :
    escapedDollars (c :: cs) = escapedDollars cs :=
  escapedDollars.eq_4 c cs (fun h _ => hc h) fun _ _ h _ => hc h

/-- A dollar before a variable is escaped or it is not. -/
theorem liveDollars_add_escapedDollars (cs : List Char) :
    liveDollars cs + escapedDollars cs = dollars cs := by
  fun_induction liveDollars cs with
  | case1 => rfl
  | case2 => rfl
  | case3 c cs ih =>
    rw [escapedDollars, dollars, dollars, dollarHere_backslash]
    omega
  | case4 c cs hlone hpair ih =>
    have hc : c ≠ '\\' := by
      rintro rfl
      cases cs with
      | nil => exact hlone rfl rfl
      | cons d cs => exact hpair d cs rfl rfl
    rw [escapedDollars_cons hc, dollars]
    omega

/-- An escape sequence stands for a dollar only if it is one that is escaped, and never for what a
dollar makes a variable of. -/
theorem of_unescape?_eq_some {value : Char} (h : unescape? quote c = some value) :
    (value = '$' ↔ c = '$') ∧ opensVariable value = false := by
  unfold unescape? at h
  split at h
  next hc =>
    cases h
    rw [beq_iff_eq.1 hc]
    decide
  split at h
  · split at h
    next hc =>
      cases h
      rw [beq_iff_eq.1 hc]
      decide
    next => cases h
  split at h
  · split at h <;> cases h <;> decide
  · cases h

theorem head?_unescaped (quote : Char) (cs : List Char) :
    (unescaped quote cs).head?.any opensVariable = cs.head?.any opensVariable := by
  have hback : opensVariable '\\' = false := by decide
  fun_cases unescaped quote cs with
  | case1 => rfl
  | case2 => rfl
  | case3 c cs value hvalue => simp [hback, (of_unescape?_eq_some hvalue).2]
  | case4 c cs => rfl
  | case5 c cs => rfl

/-- Reading leaves as many dollars before a variable as are written. -/
theorem dollars_unescaped (quote : Char) (cs : List Char) :
    dollars (unescaped quote cs) = dollars cs := by
  fun_induction unescaped quote cs with
  | case1 => rfl
  | case2 => rfl
  | case3 c cs value hvalue ih =>
    rw [dollars, dollars, dollars, dollarHere_backslash, ih, Nat.zero_add,
      dollarHere_congr (of_unescape?_eq_some hvalue).1 (head?_unescaped quote cs)]
  | case4 c cs _ ih =>
    rw [dollars, dollars, dollars, dollars, dollarHere_backslash, dollarHere_backslash, ih,
      dollarHere_congr Iff.rfl (head?_unescaped quote cs)]
  | case5 c cs _ _ ih =>
    rw [dollars, dollars, ih, dollarHere_congr Iff.rfl (head?_unescaped quote cs)]

/-- A string in quotes of the kind, perhaps with the mark of a binary string before them. -/
def Quote.Encloses (q : Quote) (text : String) : Prop :=
  ∃ mark ∈ [[], ['b'], ['B']], ∃ body, text.toList = mark ++ q.mark :: (body ++ [q.mark])

/-- So stands every string that the lexer finds. -/
theorem exists_encloses_of_string {source : String} {tokens : List Token} {token : Token}
    (htokens : Token.ofCode source = .ok tokens) (hmem : token ∈ tokens)
    (hkind : token.kind = .string) : ∃ q : Quote, q.Encloses token.text := by
  obtain ⟨quote, body, hquote, htext⟩ := Token.exists_body_of_string htokens hmem hkind
  rcases hquote with rfl | rfl
  · exact ⟨.single, [], by simp, body, htext⟩
  · exact ⟨.double, [], by simp, body, htext⟩

/-- A string puts in the value of a variable: it stands in double quotes, and some dollar before a
variable is not escaped. -/
def Interpolates (text : String) : Prop :=
  Quote.double.Encloses text ∧ 0 < liveDollars text.toList

namespace Quote.Encloses

variable {q r : Quote}

/-- What is read begins behind the first character, the mark if there is one. -/
theorem exists_inner (h : q.Encloses text) : ∃ first inner,
    text.toList = first :: (inner ++ [q.mark]) ∧ first.utf8Size = 1 ∧ first ≠ '$' := by
  obtain ⟨mark, hmark, body, htext⟩ := h
  simp only [List.mem_cons, List.not_mem_nil, or_false] at hmark
  rcases hmark with rfl | rfl | rfl
  · exact ⟨q.mark, body, htext, by cases q <;> rfl, by cases q <;> decide⟩
  · exact ⟨'b', q.mark :: body, htext, rfl, by decide⟩
  · exact ⟨'B', q.mark :: body, htext, rfl, by decide⟩

theorem unique (hq : q.Encloses text) (hr : r.Encloses text) : q = r := by
  obtain ⟨first, inner, hfirst, -⟩ := hq.exists_inner
  obtain ⟨other, outer, hother, -⟩ := hr.exists_inner
  have htext := hfirst.symm.trans hother
  rw [← List.cons_append, ← List.cons_append] at htext
  have hlast : q.mark = r.mark := List.singleton_inj.1 (List.append_inj_right' htext rfl)
  cases q <;> cases r <;> first | rfl | cases hlast

/-- A quote behind a text makes no variable of its last dollar. -/
theorem dollars_append_mark (q : Quote) (cs : List Char) :
    dollars (cs ++ [q.mark]) = dollars cs := by
  have hmark : opensVariable q.mark = false := by cases q <;> decide
  induction cs with
  | nil => cases q <;> decide
  | cons c cs ih =>
    have hhead : (cs ++ [q.mark]).head?.any opensVariable = cs.head?.any opensVariable := by
      cases cs with
      | nil => simp [hmark]
      | cons d cs => rfl
    rw [List.cons_append, dollars, dollars, ih, dollarHere_congr Iff.rfl hhead]

theorem dollars_unquote (h : q.Encloses text) :
    dollars (unquote text).toList = dollars text.toList := by
  obtain ⟨first, inner, htext, hsize, hne⟩ := h.exists_inner
  have hmark : q.mark.utf8Size = 1 := by cases q <;> rfl
  rw [unquote, htext]
  dsimp only
  rw [between_append_singleton hsize hmark, String.toList_ofList, dollars_unescaped, dollars,
    dollarHere_of_ne hne, Nat.zero_add, dollars_append_mark]

end Quote.Encloses

theorem escapedDollars_escape {special : List Char} (hback : '\\' ∈ special)
    (hdollar : '$' ∉ special) (cs rest : List Char) :
    escapedDollars (escape special cs ++ rest) = escapedDollars rest := by
  induction cs with
  | nil => rfl
  | cons c cs ih =>
    rw [escape_cons]
    split
    next hc =>
      have hne : c ≠ '$' := fun h => hdollar (h ▸ hc)
      rw [List.cons_append, List.cons_append, escapedDollars, dollarHere_of_ne hne, ih,
        Nat.zero_add]
    next hc =>
      have hne : c ≠ '\\' := fun h => hc (h ▸ hback)
      rw [List.cons_append, escapedDollars_cons hne, ih]

/-- A value in double quotes, its dollars left as they are. -/
def encloseLive (value : String) : String := enclose '\x22' ['\\', '\x22'] value

theorem escapes_live : Escapes '\x22' ['\\', '\x22'] :=
  ⟨by decide, by decide, by decide, by simp [unescape?]⟩

theorem encloses_encloseLive (value : String) : Quote.double.Encloses (encloseLive value) :=
  ⟨[], by simp, _, String.toList_ofList⟩

theorem escapedDollars_encloseLive (value : String) :
    escapedDollars (encloseLive value).toList = 0 := by
  rw [encloseLive, enclose, String.toList_ofList, escapedDollars_cons (by decide),
    escapedDollars_escape (by decide) (by decide)]
  rfl

/-- A string interpolates unless it stands in single quotes or escapes all its dollars. -/
theorem interpolates_iff {q : Quote} (h : q.Encloses text) : Interpolates text ↔
    q = .double ∧ escapedDollars text.toList < dollars text.toList := by
  rw [← liveDollars_add_escapedDollars, Nat.lt_add_left_iff_pos, Interpolates]
  exact and_congr_left' ⟨fun hdouble => h.unique hdouble, fun hq => hq ▸ h⟩

/-- Strings that agree have equally many dollars before a variable, so that one which agrees with a
string in single quotes interpolates unless it escapes them all; and in double quotes there is one
which escapes none. -/
theorem interpolates_iff_of_agree (h : Quote.single.Encloses text) :
    (∀ q other, Quote.Encloses q other → Code.tokensAgree .string text other = true →
      dollars other.toList = dollars text.toList ∧
        (Interpolates other ↔ q = .double ∧ escapedDollars other.toList < dollars text.toList)) ∧
    ((∀ q other, Quote.Encloses q other → Code.tokensAgree .string text other = true →
      ¬ Interpolates other) ↔ dollars text.toList = 0) := by
  have hsame : ∀ q other, Quote.Encloses q other → Code.tokensAgree .string text other = true →
      dollars other.toList = dollars text.toList := by
    intro q other hother hagree
    rw [← hother.dollars_unquote, ← h.dollars_unquote, beq_iff_eq.1 hagree]
  refine ⟨fun q other hother hagree => ?_, fun hnone => ?_, fun hzero q other hother hagree => ?_⟩
  · have hdollars := hsame q other hother hagree
    exact ⟨hdollars, hdollars ▸ interpolates_iff hother⟩
  · have hagree : Code.tokensAgree .string text (encloseLive (unquote text)) = true :=
      beq_iff_eq.2 (escapes_live.unquote_enclose _).symm
    have hdouble := encloses_encloseLive (unquote text)
    refine Nat.eq_zero_of_not_pos fun hpos => hnone _ _ hdouble hagree ?_
    rw [interpolates_iff hdouble, escapedDollars_encloseLive, hsame _ _ hdouble hagree]
    exact ⟨rfl, hpos⟩
  · rw [interpolates_iff hother, hsame q other hother hagree, hzero]
    exact fun hlive => Nat.not_lt_zero _ hlive.2

/-- One of two dollars is escaped, or both are. -/
theorem interpolates_unless_all_escaped :
    Quote.single.Encloses "\x27$a$b\x27" ∧ Interpolates "\"\\$a$b\"" ∧
      ¬ Interpolates "\"\\$a\\$b\"" := by
  have hsingle : Quote.single.Encloses "\x27$a$b\x27" :=
    ⟨[], by simp, ['$', 'a', '$', 'b'], by decide +kernel⟩
  have hone : Quote.double.Encloses "\"\\$a$b\"" :=
    ⟨[], by simp, ['\\', '$', 'a', '$', 'b'], by decide +kernel⟩
  have hboth : Quote.double.Encloses "\"\\$a\\$b\"" :=
    ⟨[], by simp, ['\\', '$', 'a', '\\', '$', 'b'], by decide +kernel⟩
  obtain ⟨hiff, -⟩ := interpolates_iff_of_agree hsingle
  refine ⟨hsingle, (hiff _ _ hone (by decide +kernel)).2.2 ⟨rfl, by decide +kernel⟩, ?_⟩
  rw [(hiff _ _ hboth (by decide +kernel)).2]
  exact fun hlive => absurd hlive.2 (by decide +kernel)

/-- A constant string agrees with one that interpolates. -/
theorem exists_agree_interpolates : ∃ text other, Token.ofCode text = .ok [⟨.string, text⟩] ∧
    Token.ofCode other = .ok [⟨.string, other⟩] ∧ Quote.single.Encloses text ∧
      Code.tokensAgree .string text other = true ∧ Interpolates other :=
  ⟨"\x27$a\x27", "\"$a\"", by decide +kernel, by decide +kernel,
    ⟨[], by simp, ['$', 'a'], by decide +kernel⟩, by decide +kernel,
    ⟨[], by simp, ['$', 'a'], by decide +kernel⟩, by decide +kernel⟩

end PhpLint.Literal
