import Mathlib.Data.Nat.Digits.Defs
import PhpLint.Equivalence
import PhpLint.Proofs.Text.Lower
import PhpLint.Proofs.Token.Literals

/-! The value of a whole number is what its digits stand for in the base that its prefix says, where
they are digits of that base and the value fits the signed word. -/

namespace PhpLint.Literal

variable {base n : Nat} {c : Char} {cs digits : List Char} {text : String}

/-- Digits of a base, in either case, and the number they stand for, the first counting most. -/
def Denotes (base : Nat) (digits : List Char) (n : Nat) : Prop :=
  ∃ values : List Nat, values ≠ [] ∧ (∀ value ∈ values, value < base) ∧
    digits.map Char.toLower = values.map Nat.digitChar ∧ n = Nat.ofDigits base values.reverse

/-- How a number without separators is written: the base, and the digits that count. -/
inductive Written : List Char → Nat → List Char → Prop where
  | hexadecimal {x : Char} {digits : List Char} (hx : x = 'x' ∨ x = 'X') :
      Written ('0' :: x :: digits) 16 digits
  | binary {b : Char} {digits : List Char} (hb : b = 'b' ∨ b = 'B') :
      Written ('0' :: b :: digits) 2 digits
  | octal {o : Char} {digits : List Char} (ho : o = 'o' ∨ o = 'O') :
      Written ('0' :: o :: digits) 8 digits
  | leadingZero {d : Char} {digits : List Char} (hd : d.isDigit = true) :
      Written ('0' :: d :: digits) 8 (d :: digits)
  | zero : Written ['0'] 10 ['0']
  | decimal {d : Char} {digits : List Char} (hd : d.isDigit = true) (hzero : d ≠ '0') :
      Written (d :: digits) 10 (d :: digits)

theorem Written.base_le (h : Written cs base digits) : base ≤ 16 := by
  cases h <;> decide

theorem digitValue_digitChar : ∀ d < 16, digitValue (Nat.digitChar d) = d := by decide

/-- A digit by its code point. -/
theorem digitValue_eq (c : Char) : digitValue c =
    if 48 ≤ c.toNat ∧ c.toNat ≤ 57 then c.toNat - 48
    else if 97 ≤ c.toNat ∧ c.toNat ≤ 122 then c.toNat - 97 + 10
    else if 65 ≤ c.toNat ∧ c.toNat ≤ 90 then c.toNat - 65 + 10
    else 36 := by
  simp only [digitValue, Char.isDigit_iff_toNat, Bool.and_eq_true, decide_eq_true_eq]
  rfl

theorem digitChar_digitValue (hlower : c.toLower = c) (h : digitValue c < 16) :
    Nat.digitChar (digitValue c) = c := by
  have hdecimal : ∀ d < 10, (Nat.digitChar d).toNat = d + 48 := by decide
  have hletter : ∀ d < 6, (Nat.digitChar (d + 10)).toNat = d + 97 := by decide
  have hcase := Text.toNat_toLower c
  rw [hlower] at hcase
  rw [digitValue_eq] at h
  rw [digitValue_eq, ← Char.toNat_inj]
  split
  next hdigit => rw [hdecimal _ (by omega)]; omega
  next hdigit =>
  rw [if_neg hdigit] at h
  split
  next hlow =>
    rw [if_pos hlow] at h
    rw [hletter _ (by omega)]
    omega
  next hlow =>
    rw [if_neg hlow] at h
    split at h <;> [split at hcase; skip] <;> omega

/-- One more digit, unless it is none of the base. -/
def addDigit (base : Nat) (value : Option Nat) (c : Char) : Option Nat :=
  value.bind fun n => if digitValue c < base then some (n * base + digitValue c) else none

theorem foldl_addDigit_none (base : Nat) (cs : List Char) :
    cs.foldl (addDigit base) none = none := by
  induction cs with
  | nil => rfl
  | cons c cs ih => exact ih

/-- Horner's rule, begun with a number. -/
theorem foldl_addDigit_eq_some_iff (hbase : base ≤ 16) (hlower : ∀ c ∈ cs, c.toLower = c)
    (start : Nat) : cs.foldl (addDigit base) (some start) = some n ↔
      ∃ values : List Nat, (∀ value ∈ values, value < base) ∧ cs = values.map Nat.digitChar ∧
        n = values.foldl (fun value d => value * base + d) start := by
  induction cs generalizing start with
  | nil => simp [eq_comm]
  | cons c cs ih =>
    rw [List.forall_mem_cons] at hlower
    rw [List.foldl_cons, addDigit, Option.bind_some]
    split
    next hdigit =>
      rw [ih hlower.2]
      constructor
      · rintro ⟨values, hvalues, rfl, rfl⟩
        refine ⟨digitValue c :: values, ?_, ?_, rfl⟩
        · simpa using ⟨hdigit, hvalues⟩
        · rw [List.map_cons, digitChar_digitValue hlower.1 (by omega)]
      · rintro ⟨values, hvalues, hcs, rfl⟩
        cases values with
        | nil => cases hcs
        | cons d values =>
          rw [List.map_cons, List.cons.injEq] at hcs
          obtain ⟨rfl, rfl⟩ := hcs
          rw [List.forall_mem_cons] at hvalues
          have hd := digitValue_digitChar d (by omega)
          exact ⟨values, hvalues.2, rfl, by rw [hd]; rfl⟩
    next hdigit =>
      rw [foldl_addDigit_none]
      refine ⟨nofun, ?_⟩
      rintro ⟨values, hvalues, hcs, -⟩
      cases values with
      | nil => cases hcs
      | cons d values =>
        rw [List.map_cons, List.cons.injEq] at hcs
        rw [List.forall_mem_cons] at hvalues
        rw [hcs.1, digitValue_digitChar d (by omega)] at hdigit
        exact absurd hvalues.1 hdigit

theorem foldl_eq_ofDigits (base : Nat) (values : List Nat) :
    values.foldl (fun value d => value * base + d) 0 = Nat.ofDigits base values.reverse := by
  rw [Nat.ofDigits_eq_foldr, List.foldr_reverse]
  refine congrArg (fun f => List.foldl f 0 values) (funext fun value => funext fun d => ?_)
  rw [Nat.cast_id, Nat.mul_comm, Nat.add_comm]

theorem digitsValue?_eq_some_iff (hbase : base ≤ 16) (digits : List Char) :
    digitsValue? base (digits.map Char.toLower) = some n ↔ Denotes base digits n := by
  have hlower : ∀ c ∈ digits.map Char.toLower, c.toLower = c := by
    intro c hc
    obtain ⟨d, -, rfl⟩ := List.mem_map.1 hc
    exact Text.toLower_toLower d
  rw [Denotes, digitsValue?]
  generalize digits.map Char.toLower = cs at hlower ⊢
  cases cs with
  | nil => simp [eq_comm (a := [])]
  | cons c cs =>
    rw [if_neg (by simp)]
    refine (foldl_addDigit_eq_some_iff hbase hlower 0).trans (exists_congr fun values => ?_)
    rw [foldl_eq_ofDigits]
    refine ⟨fun h => ⟨?_, h⟩, And.right⟩
    rintro rfl
    cases h.2.1

theorem inRange_natCast (n : Nat) (v : Int) : inRange n = some v ↔ n < 2 ^ 127 ∧ v = n := by
  have hbound : (n : Int) < Int.ofNat (Nat.pow 2 127) ↔ n < 2 ^ 127 := Int.ofNat_lt
  have hsign : -Int.ofNat (Nat.pow 2 127) ≤ (n : Int) := by
    have : (0 : Int) ≤ Int.ofNat (Nat.pow 2 127) := Int.natCast_nonneg _
    omega
  unfold inRange
  dsimp only
  by_cases hlt : n < 2 ^ 127
  · rw [if_pos ⟨hsign, hbound.2 hlt⟩, Option.some.injEq]
    exact ⟨fun h => ⟨hlt, h.symm⟩, fun h => h.2.symm⟩
  · rw [if_neg fun h => hlt (hbound.1 h.2)]
    exact ⟨nofun, fun h => absurd h.1 hlt⟩

/-- The first digit is no sign. -/
theorem signedValue?_eq (base : Nat) (hdigits : ∀ c ∈ digits, c ≠ '-' ∧ c ≠ '+') :
    signedValue? base digits = (digitsValue? base digits).bind fun n => inRange n := by
  unfold signedValue?
  split
  · simp at hdigits
  · simp at hdigits
  · rfl

theorem toLower_of_isDigit (h : c.isDigit = true) : c.toLower = c := by
  have hcode : 48 ≤ c.toNat ∧ c.toNat ≤ 57 := Char.isDigit_iff_toNat.1 h
  rw [← Char.toNat_inj, Text.toNat_toLower, if_neg (by omega)]

/-- Digits have no sign. -/
theorem ne_sign_of_isHexPart (h : ∀ c ∈ digits, Token.isHexPart c = true) :
    ∀ c ∈ digits.map Char.toLower, c ≠ '-' ∧ c ≠ '+' := by
  intro c hc
  obtain ⟨d, hd, rfl⟩ := List.mem_map.1 hc
  have hne : ∀ sign, Token.isHexPart sign = false → d ≠ sign := fun _ =>
    Token.ne_of_class (h d hd)
  rw [ne_eq, ne_eq, Text.toLower_eq_iff (by decide) (by decide),
    Text.toLower_eq_iff (by decide) (by decide)]
  exact ⟨hne '-' (by decide), hne '+' (by decide)⟩

theorem ne_sign_of_denotes (hbase : base ≤ 16) (h : Denotes base digits n) :
    ∀ c ∈ digits.map Char.toLower, c ≠ '-' ∧ c ≠ '+' := by
  intro c hc
  obtain ⟨values, -, hlt, hvalues, -⟩ := h
  rw [hvalues] at hc
  obtain ⟨d, hd, rfl⟩ := List.mem_map.1 hc
  have hne : ∀ d < 16, Nat.digitChar d ≠ '-' ∧ Nat.digitChar d ≠ '+' := by decide
  exact hne d (Nat.lt_of_lt_of_le (hlt d hd) hbase)

theorem integerValue?_of_written (h : Written (text.toList.filter (· != '_')) base digits)
    (hsign : ∀ c ∈ digits.map Char.toLower, c ≠ '-' ∧ c ≠ '+') : integerValue? text =
      (digitsValue? base (digits.map Char.toLower)).bind fun n => inRange n := by
  rw [← signedValue?_eq base hsign, integerValue?]
  generalize text.toList.filter (· != '_') = cs at h
  cases h with
  | hexadecimal hx => rcases hx with rfl | rfl <;> rfl
  | binary hb => rcases hb with rfl | rfl <;> rfl
  | octal ho => rcases ho with rfl | rfl <;> rfl
  | zero => rfl
  | @leadingZero d digits hd =>
    -- a digit is no letter of a prefix
    have hne : ∀ b, b.isDigit = false → d ≠ b := fun b => Token.ne_of_class hd
    rw [List.map_cons, List.map_cons, toLower_of_isDigit hd]
    split
    next heq => simp [hne 'x' rfl] at heq
    next heq => simp [hne 'b' rfl] at heq
    next heq => simp [hne 'o' rfl] at heq
    next heq => rw [(List.cons.inj heq).2]
    next hnone => exact absurd rfl (hnone _ _)
  | @decimal d digits hd hzero =>
    rw [List.map_cons, toLower_of_isDigit hd]
    split <;> simp_all

/-- Every whole number of the lexer is written in one of these ways. -/
theorem exists_written (h : Token.WholeNumber cs) : ∃ base digits,
    Written (cs.filter (· != '_')) base digits ∧ ∀ c ∈ digits, Token.isHexPart c = true := by
  cases h with
  | @based b digits hb hdigits =>
    have hdigits : ∀ c ∈ digits.filter (· != '_'), Token.isHexPart c = true := fun c hc =>
      hdigits c (List.mem_of_mem_filter hc)
    simp only [List.mem_cons, List.not_mem_nil, or_false] at hb
    rcases hb with rfl | rfl | rfl | rfl | rfl | rfl
    · exact ⟨16, _, .hexadecimal (.inl rfl), hdigits⟩
    · exact ⟨16, _, .hexadecimal (.inr rfl), hdigits⟩
    · exact ⟨2, _, .binary (.inl rfl), hdigits⟩
    · exact ⟨2, _, .binary (.inr rfl), hdigits⟩
    · exact ⟨8, _, .octal (.inl rfl), hdigits⟩
    · exact ⟨8, _, .octal (.inr rfl), hdigits⟩
  | @plain d digits hd hdigits =>
    have hkeep : (d :: digits).filter (· != '_') = d :: digits.filter (· != '_') :=
      List.filter_cons_of_pos (by simpa using Token.ne_of_class hd (by decide))
    have hrest : ∀ c ∈ digits.filter (· != '_'), c.isDigit = true := by
      intro c hc
      obtain ⟨hmem, hne⟩ := List.mem_filter.1 hc
      have hpart := hdigits c hmem
      rw [Token.isDigitPart, Bool.or_eq_true] at hpart
      exact hpart.resolve_right (by simpa using hne)
    have hhex : ∀ c : Char, c.isDigit = true → Token.isHexPart c = true := fun c hc => by
      simp [Token.isHexPart, hc]
    rw [hkeep]
    generalize digits.filter (· != '_') = digits at hrest
    by_cases hzero : d = '0'
    · subst hzero
      cases digits with
      | nil => exact ⟨10, _, .zero, by simp [hhex]⟩
      | cons e digits =>
        exact ⟨8, _, .leadingZero (hrest e (by simp)), fun c hc => hhex c (hrest c hc)⟩
    · exact ⟨10, _, .decimal hd hzero,
        List.forall_mem_cons.2 ⟨hhex d hd, fun c hc => hhex c (hrest c hc)⟩⟩

/-- The number that a text stands for, below the end of the signed word. -/
def Valued (text : String) (n : Nat) : Prop :=
  ∃ base digits, Written (text.toList.filter (· != '_')) base digits ∧
    Denotes base digits n ∧ n < 2 ^ 127

theorem integerValue?_eq_some_iff (h : Token.WholeNumber text.toList) (v : Int) :
    integerValue? text = some v ↔ ∃ n, Valued text n ∧ v = n := by
  constructor
  · obtain ⟨base, digits, hwritten, hdigits⟩ := exists_written h
    rw [integerValue?_of_written hwritten (ne_sign_of_isHexPart hdigits), Option.bind_eq_some_iff]
    rintro ⟨n, hn, hv⟩
    rw [digitsValue?_eq_some_iff hwritten.base_le] at hn
    rw [inRange_natCast] at hv
    exact ⟨n, ⟨base, digits, hwritten, hn, hv.1⟩, hv.2⟩
  · rintro ⟨n, ⟨base, digits, hwritten, hn, hlt⟩, rfl⟩
    rw [integerValue?_of_written hwritten (ne_sign_of_denotes hwritten.base_le hn),
      Option.bind_eq_some_iff]
    exact ⟨n, (digitsValue?_eq_some_iff hwritten.base_le digits).2 hn,
      (inRange_natCast n n).2 ⟨hlt, rfl⟩⟩

theorem integerValue?_eq_none_iff (h : Token.WholeNumber text.toList) :
    integerValue? text = none ↔ ∀ n, ¬ Valued text n := by
  rw [Option.eq_none_iff_forall_ne_some]
  constructor
  · intro hnone n hn
    exact hnone n ((integerValue?_eq_some_iff h n).2 ⟨n, hn, rfl⟩)
  · intro hnone v hv
    obtain ⟨n, hn, -⟩ := (integerValue?_eq_some_iff h v).1 hv
    exact hnone n hn

theorem exists_valued_iff {other : String} (h : Token.WholeNumber text.toList)
    (hother : Token.WholeNumber other.toList) : (∃ n, Valued text n ∧ Valued other n) ↔
      ∃ v, integerValue? text = some v ∧ integerValue? other = some v := by
  constructor
  · rintro ⟨n, hn, hn'⟩
    exact ⟨n, (integerValue?_eq_some_iff h n).2 ⟨n, hn, rfl⟩,
      (integerValue?_eq_some_iff hother n).2 ⟨n, hn', rfl⟩⟩
  · rintro ⟨v, hv, hv'⟩
    obtain ⟨n, hn, rfl⟩ := (integerValue?_eq_some_iff h v).1 hv
    obtain ⟨m, hm, hnm⟩ := (integerValue?_eq_some_iff hother n).1 hv'
    exact ⟨n, hn, Int.ofNat_inj.1 hnm ▸ hm⟩

theorem integersAgree_iff (text other : String) : Code.integersAgree text other = true ↔
    (∃ v, integerValue? text = some v ∧ integerValue? other = some v) ∨
      (integerValue? text = none ∨ integerValue? other = none) ∧ text = other := by
  rw [Code.integersAgree]
  cases integerValue? text with
  | none => simp
  | some v =>
    cases integerValue? other with
    | none => simp
    | some w =>
      simp only [beq_iff_eq, Option.some.injEq, exists_eq_left', reduceCtorEq, or_self, false_and,
        or_false]
      exact eq_comm

/-- A whole number is written in some base and has the value of its digits there; and two of them
agree exactly if they have one value, or are spelled alike where one has none. -/
theorem integerValue?_and_agree_of_intNumber {source other : String} {tokens others : List Token}
    {x y : Token} (hsource : Token.ofCode source = .ok tokens) (hx : x ∈ tokens)
    (hxkind : x.kind = .intNumber) (hother : Token.ofCode other = .ok others) (hy : y ∈ others)
    (hykind : y.kind = .intNumber) :
    (∃ base digits, Written (x.text.toList.filter (· != '_')) base digits) ∧
    (∀ v, integerValue? x.text = some v ↔ ∃ n, Valued x.text n ∧ v = n) ∧
    (Code.tokensAgree .intNumber x.text y.text = true ↔
      (∃ n, Valued x.text n ∧ Valued y.text n) ∨
        ((∀ n, ¬ Valued x.text n) ∨ ∀ n, ¬ Valued y.text n) ∧ x.text = y.text) := by
  have hxnumber := Token.wholeNumber_of_intNumber hsource hx hxkind
  have hynumber := Token.wholeNumber_of_intNumber hother hy hykind
  obtain ⟨base, digits, hwritten, -⟩ := exists_written hxnumber
  refine ⟨⟨base, digits, hwritten⟩, integerValue?_eq_some_iff hxnumber, ?_⟩
  rw [Code.tokensAgree, integersAgree_iff, ← exists_valued_iff hxnumber hynumber,
    integerValue?_eq_none_iff hxnumber, integerValue?_eq_none_iff hynumber]

/-- Sixteen, in hexadecimal with a separator and in octal. -/
theorem agree_of_sixteen :
    Token.ofCode "0X1_0" = .ok [⟨.intNumber, "0X1_0"⟩] ∧
      Token.ofCode "020" = .ok [⟨.intNumber, "020"⟩] ∧ integerValue? "0X1_0" = some 16 ∧
      Code.tokensAgree .intNumber "0X1_0" "020" = true := by
  have hfirst : Token.ofCode "0X1_0" = .ok [⟨.intNumber, "0X1_0"⟩] := by decide +kernel
  have hsecond : Token.ofCode "020" = .ok [⟨.intNumber, "020"⟩] := by decide +kernel
  obtain ⟨-, hvalue, hagree⟩ := integerValue?_and_agree_of_intNumber hfirst
    (List.mem_singleton_self _) rfl hsecond (List.mem_singleton_self _) rfl
  have hhex : Valued "0X1_0" 16 := by
    have hbare : "0X1_0".toList.filter (· != '_') = ['0', 'X', '1', '0'] := by decide +kernel
    exact ⟨16, ['1', '0'], hbare ▸ .hexadecimal (.inr rfl),
      ⟨[1, 0], by decide, by decide, by decide, by decide⟩, by decide⟩
  have hoctal : Valued "020" 16 := by
    have hbare : "020".toList.filter (· != '_') = ['0', '2', '0'] := by decide +kernel
    exact ⟨8, ['2', '0'], hbare ▸ .leadingZero rfl,
      ⟨[2, 0], by decide, by decide, by decide, by decide⟩, by decide⟩
  exact ⟨hfirst, hsecond, (hvalue 16).2 ⟨16, hhex, rfl⟩, hagree.2 (.inl ⟨16, hhex, hoctal⟩)⟩

end PhpLint.Literal
