import PhpLint.Equivalence
import PhpLint.Proofs.Token.Literals

/-! Quoting and reading undo each other. A value is put in quotes by a backslash before every
character that means something there; what comes out is one string token, and its value is the value
that was quoted. -/

namespace PhpLint.Literal

variable {quote c : Char} {special cs : List Char}

/-- A backslash before each of some characters. -/
def escape (special cs : List Char) : List Char :=
  cs.flatMap fun c => if c ∈ special then ['\\', c] else [c]

/-- A value between two quotes. -/
def enclose (quote : Char) (special : List Char) (value : String) : String :=
  .ofList (quote :: (escape special value.toList ++ [quote]))

/-- Characters that can be escaped between two quotes. The backslash and the quote have to be, and
each of them stands for itself behind a backslash. -/
structure Escapes (quote : Char) (special : List Char) : Prop where
  quote_eq : quote = '\x27' ∨ quote = '\x22'
  backslash_mem : '\\' ∈ special
  quote_mem : quote ∈ special
  unescape?_eq : ∀ c ∈ special, unescape? quote c = some c

theorem escape_cons (special : List Char) (c : Char) (cs : List Char) :
    escape special (c :: cs) =
      if c ∈ special then '\\' :: c :: escape special cs else c :: escape special cs := by
  rw [escape, List.flatMap_cons, ← escape]
  split <;> rfl

theorem unescaped_cons (hc : c ≠ '\\') (cs : List Char) :
    unescaped quote (c :: cs) = c :: unescaped quote cs :=
  unescaped.eq_4 quote c cs (fun h _ => hc h) fun _ _ h _ => hc h

theorem unescaped_escaped (quote c : Char) (cs : List Char) :
    unescaped quote ('\\' :: c :: cs) =
      (unescape? quote c).elim ['\\', c] (fun value => [value]) ++ unescaped quote cs := by
  rw [unescaped]
  cases unescape? quote c <;> rfl

theorem between_append_singleton (hfirst : c.utf8Size = 1) (hquote : quote.utf8Size = 1)
    (body : List Char) : between (c :: (body ++ [quote])) = body := by
  simp [between, hfirst, hquote]

namespace Escapes

variable (h : Escapes quote special)

include h

theorem ne_of_notMem (hc : c ∉ special) : c ≠ '\\' ∧ c ≠ quote :=
  ⟨fun hback => hc (hback ▸ h.backslash_mem), fun hquote => hc (hquote ▸ h.quote_mem)⟩

theorem unescaped_escape (cs : List Char) : unescaped quote (escape special cs) = cs := by
  induction cs with
  | nil => rfl
  | cons c cs ih =>
    rw [escape_cons]
    split
    next hc => rw [unescaped_escaped, h.unescape?_eq c hc, ih]; rfl
    next hc => rw [unescaped_cons (h.ne_of_notMem hc).1, ih]

/-- No quote inside ends the string. -/
theorem quotedLength?_escape (cs rest : List Char) :
    Token.quotedLength? quote (escape special cs ++ quote :: rest) =
      some ((escape special cs).length + 1) := by
  induction cs with
  | nil =>
    have hquote : quote ≠ '\\' := by rcases h.quote_eq with rfl | rfl <;> decide
    simp [escape, Token.quotedLength?_cons hquote]
  | cons c cs ih =>
    rw [escape_cons]
    split
    next => simp [Token.quotedLength?, ih]
    next hc =>
      obtain ⟨hback, hquote⟩ := h.ne_of_notMem hc
      simp [Token.quotedLength?_cons hback, hquote, ih]

theorem unquote_enclose (value : String) : unquote (enclose quote special value) = value := by
  have hsize : quote.utf8Size = 1 := by rcases h.quote_eq with rfl | rfl <;> rfl
  rw [unquote, enclose, String.toList_ofList]
  dsimp only
  rw [between_append_singleton hsize hsize, h.unescaped_escape, String.ofList_toList]

theorem ofCode_enclose (value : String) : Token.ofCode (enclose quote special value) =
    .ok [⟨.string, enclose quote special value⟩] := by
  have hlexeme := Token.codeLexeme_of_quote h.quote_eq (escape special value.toList ++ [quote])
  rw [Token.quotedLexeme, h.quotedLength?_escape] at hlexeme
  rw [Token.ofCode, enclose, String.toList_ofList]
  exact Token.scan_eq_singleton hlexeme (by simp [Nat.add_comm])

end Escapes

/-- The two kinds of quotes. -/
inductive Quote where
  | single
  | double
  deriving DecidableEq, Inhabited, Repr

namespace Quote

def mark : Quote → Char
  | single => '\x27'
  | double => '\x22'

/-- What is escaped between the quotes; in double ones a dollar would begin a variable. -/
def escapes : Quote → List Char
  | single => ['\\', '\x27']
  | double => ['\\', '\x22', '$']

def enclose (q : Quote) (value : String) : String := Literal.enclose q.mark q.escapes value

theorem escapes_mark (q : Quote) : Escapes q.mark q.escapes := by
  cases q <;> exact ⟨by decide, by decide, by decide, by simp [escapes, mark, unescape?]⟩

/-- A value in quotes is one string token, whose value it is; so that two of them, in whichever
quotes, agree exactly if they are the same. -/
theorem ofCode_and_unquote_enclose :
    (∀ (q : Quote) (value : String),
      Token.ofCode (q.enclose value) = .ok [⟨.string, q.enclose value⟩] ∧
        unquote (q.enclose value) = value) ∧
    ∀ (q r : Quote) (value other : String),
      Code.tokensAgree .string (q.enclose value) (r.enclose other) = true ↔ value = other := by
  have hvalue : ∀ (q : Quote) (value : String), unquote (q.enclose value) = value :=
    fun q value => q.escapes_mark.unquote_enclose value
  refine ⟨fun q value => ⟨q.escapes_mark.ofCode_enclose value, hvalue q value⟩, ?_⟩
  intro q r value other
  rw [Code.tokensAgree, hvalue, hvalue, beq_iff_eq]

end Quote

example : Quote.double.enclose "it\x27s $5" = "\"it\x27s \\$5\"" := by decide +kernel

end PhpLint.Literal
