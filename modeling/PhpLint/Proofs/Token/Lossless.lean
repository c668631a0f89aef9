import PhpLint.Proofs.Token.Lengths

/-! The tokens of a text are the text again. The scan is told as a judgment that cuts one token
after another off the front, each as long as its lexeme measures itself; what it leaves is a piece
of the text at every step, and the length bounds make every step take something. -/

namespace PhpLint.Token

namespace Heredoc

/-- What is left opens a heredoc by a quoted label and ends before the second quote. -/
def OpenQuote (left : List Char) : Prop :=
  ∃ blanks quote name, left = '<' :: '<' :: '<' :: (blanks ++ quote :: name) ∧
    (∀ c ∈ blanks, isIndent c = true) ∧ (quote = '\x27' ∨ quote = '\x22') ∧
    name ≠ [] ∧ nameLength name = name.length

theorem exists_of_lengthAfter?_eq_error {cs : List Char} {fault : Fault}
    (h : lengthAfter? cs = .error fault) :
    ∃ blanks quote name, cs = blanks ++ quote :: name ∧ (∀ c ∈ blanks, isIndent c = true) ∧
      (quote = '\x27' ∨ quote = '\x22') ∧ name ≠ [] ∧ nameLength name = name.length := by
  have hcs := List.takeWhile_append_dropWhile (p := isIndent) (l := cs)
  simp only [lengthAfter?] at h
  generalize cs.dropWhile isIndent = head at h hcs
  cases head with
  | nil => simp [nameLength] at h
  | cons quote name =>
    by_cases hquote : (quote == '\x27' || quote == '\x22') = true
    · simp only [List.head?_cons, Option.any_some, hquote, if_true, List.drop_succ_cons,
        List.drop_zero, Bool.true_and, beq_iff_eq, List.isEmpty_iff, List.drop_eq_nil_iff] at h
      split at h
      · cases h
      next hname =>
      split at h
      next hend =>
        refine ⟨_, quote, name, hcs.symm, fun c hc => List.all_eq_true.1 List.all_takeWhile c hc,
          by simpa using hquote, ?_, Nat.le_antisymm (nameLength_le name) hend⟩
        rintro rfl
        exact hname rfl
      next => cases h
    · simp only [List.head?_cons, Option.any_some, hquote, Bool.false_and, Bool.false_eq_true,
        if_false] at h
      split at h <;> cases h

end Heredoc

/-- Nothing but an open heredoc label keeps the text from being scanned on. -/
theorem openQuote_of_lexeme_eq_error {mode : Mode} {c : Char} {rest : List Char} {fault : Fault}
    (h : lexeme mode c rest = .error fault) : mode = .code ∧ Heredoc.OpenQuote (c :: rest) := by
  cases mode with
  | markup => cases h
  | code =>
    refine ⟨rfl, ?_⟩
    simp only [lexeme, codeLexeme] at h
    split at h
    · cases h
    split at h
    · cases h
    split at h
    · cases h
    split at h
    next hopen =>
      obtain ⟨after, hafter⟩ := List.isPrefixOf_iff_prefix.1 hopen
      rw [← hafter] at h ⊢
      split at h
      next hfault =>
        obtain ⟨blanks, quote, name, rfl, hrest⟩ :=
          Heredoc.exists_of_lengthAfter?_eq_error hfault
        exact ⟨blanks, quote, name, rfl, hrest⟩
      · cases h
      · cases h
    · cases h

/-- From a mode and a text the scan comes, by the tokens cut off the front, to a mode and the
text that is left. -/
inductive Cuts : Mode → List Char → List Token → Mode → List Char → Prop where
  | done (mode : Mode) (left : List Char) : Cuts mode left [] mode left
  | token {mode last : Mode} {c : Char} {rest behind left : List Char} {found : Lexeme}
      {token : Token} {tokens : List Token} (hfound : lexeme mode c rest = .ok found)
      (hkind : token.kind = found.kind) (hlength : token.text.length = found.length)
      (htext : c :: rest = token.text.toList ++ behind)
      (hbehind : Cuts found.mode behind tokens last left) :
      Cuts mode (c :: rest) (token :: tokens) last left

namespace Cuts

variable {mode last : Mode} {cs left : List Char} {tokens : List Token}

theorem text_eq (h : Cuts mode cs tokens last left) :
    tokens.flatMap (·.text.toList) ++ left = cs := by
  induction h with
  | done => rfl
  | token _ _ _ htext _ ih => rw [List.flatMap_cons, List.append_assoc, ih, htext]

theorem text_ne (h : Cuts mode cs tokens last left) : ∀ token ∈ tokens, token.text ≠ "" := by
  induction h with
  | done => simp
  | token hfound _ hlength _ _ ih =>
    refine List.forall_mem_cons.2 ⟨fun hnil => ?_, ih⟩
    have hpos := (lexeme_within hfound).1
    rw [← hlength, hnil] at hpos
    exact absurd hpos (by decide)

end Cuts

/-- A step of the scan, as a cut. -/
theorem cut_eq {mode : Mode} {c : Char} {rest : List Char} {found : Lexeme}
    (h : lexeme mode c rest = .ok found) :
    let text := String.ofList (c :: rest.take (found.length - 1))
    text.length = found.length ∧
      c :: rest = text.toList ++ rest.drop (found.length - 1) := by
  obtain ⟨hpos, hle⟩ := lexeme_within h
  refine ⟨?_, by simp⟩
  rw [String.length_ofList, List.length_cons, List.length_take]
  omega

/-- A scan cuts the whole text up, or comes to a label it cannot get past. -/
theorem scan_cuts (mode : Mode) (cs : List Char) :
    match scan mode cs with
    | .ok tokens => ∃ last, Cuts mode cs tokens last []
    | .error _ => ∃ tokens left, Cuts mode cs tokens .code left ∧ Heredoc.OpenQuote left := by
  fun_induction scan mode cs with
  | case1 mode => exact ⟨mode, .done mode []⟩
  | case2 mode c rest fault hfault =>
    obtain ⟨rfl, hopen⟩ := openQuote_of_lexeme_eq_error hfault
    exact ⟨[], _, .done _ _, hopen⟩
  | case3 mode c rest found hfound further fault hfault ih =>
    obtain ⟨hlength, htext⟩ := cut_eq hfound
    rw [hfault] at ih
    obtain ⟨tokens, left, hcuts, hopen⟩ := ih
    exact ⟨⟨found.kind, .ofList (c :: rest.take further)⟩ :: tokens, left,
      .token hfound rfl hlength htext hcuts, hopen⟩
  | case4 mode c rest found hfound further tokens htokens ih =>
    obtain ⟨hlength, htext⟩ := cut_eq hfound
    rw [htokens] at ih
    obtain ⟨last, hcuts⟩ := ih
    exact ⟨last, .token hfound rfl hlength htext hcuts⟩

theorem exists_cuts_of_scan {mode : Mode} {cs : List Char} {tokens : List Token}
    (h : scan mode cs = .ok tokens) : ∃ last, Cuts mode cs tokens last [] := by
  have hcuts := scan_cuts mode cs
  rwa [h] at hcuts

/-- The tokens are the text again, none of them empty, cut off it one by one. -/
structure CutUp (mode : Mode) (source : String) (tokens : List Token) : Prop where
  nonempty : ∀ token ∈ tokens, token.text ≠ ""
  join_eq : String.join (tokens.map Token.text) = source
  cuts : ∃ last, Cuts mode source.toList tokens last []

theorem cutUp_of_cuts {mode last : Mode} {source : String} {tokens : List Token}
    (h : Cuts mode source.toList tokens last []) : CutUp mode source tokens where
  nonempty := h.text_ne
  join_eq := by
    rw [← String.toList_inj, String.toList_join, List.flatMap_map, ← h.text_eq, List.append_nil]
  cuts := ⟨last, h⟩

theorem scan_cutUp (mode : Mode) (source : String) :
    (∃ tokens, scan mode source.toList = .ok tokens ∧ CutUp mode source tokens) ∨
      ∃ tokens left, scan mode source.toList = .error .openHeredocQuote ∧
        Cuts mode source.toList tokens .code left ∧ Heredoc.OpenQuote left := by
  have h := scan_cuts mode source.toList
  cases hscan : scan mode source.toList with
  | ok tokens =>
    rw [hscan] at h
    obtain ⟨last, hcuts⟩ := h
    exact .inl ⟨tokens, rfl, cutUp_of_cuts hcuts⟩
  | error fault =>
    rw [hscan] at h
    obtain ⟨tokens, left, hcuts, hopen⟩ := h
    cases fault
    exact .inr ⟨tokens, left, rfl, hcuts, hopen⟩

/-- Scanning a file and scanning code give the text back token by token, unless an open heredoc
label is come to; and at every place of any text, in either mode, a lexeme takes at least one
character and no more than there are. -/
theorem ofFile_and_ofCode_lossless (source : String) :
    ((∃ tokens, ofFile source = .ok tokens ∧ CutUp .markup source tokens) ∨
      ∃ tokens left, ofFile source = .error .openHeredocQuote ∧
        Cuts .markup source.toList tokens .code left ∧ Heredoc.OpenQuote left) ∧
    ((∃ tokens, ofCode source = .ok tokens ∧ CutUp .code source tokens) ∨
      ∃ tokens left, ofCode source = .error .openHeredocQuote ∧
        Cuts .code source.toList tokens .code left ∧ Heredoc.OpenQuote left) ∧
    ∀ mode c rest found, lexeme mode c rest = .ok found →
      0 < found.length ∧ found.length ≤ (c :: rest).length :=
  ⟨scan_cutUp .markup source, scan_cutUp .code source, fun _ _ _ _ h => lexeme_within h⟩

end PhpLint.Token
