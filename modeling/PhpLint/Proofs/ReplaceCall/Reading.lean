import PhpLint.Proofs.ReplaceCall.Meaning
import PhpLint.ReplaceCall.Merge

/-! Calls read off their texts. Where a literal ends is told by its quotes; what stands between
quotes of a kind means is left open, as `value`. -/

namespace PhpLint.ReplaceCall

/-- What stands in front of the closing quote, and what behind it. The character after a backslash
closes nothing. -/
def closing? (quote : Char) : Bool → List Char → Option (List Char × List Char)
  | _, [] => none
  | true, c :: text => (closing? quote false text).map (Prod.map (c :: ·) id)
  | false, c :: text =>
    if c = quote then some ([], text)
    else (closing? quote (c == '\\') text).map (Prod.map (c :: ·) id)

section

variable (value : Char → List Char → Bytes)

def readQuoted? : List Char → Option (Bytes × List Char)
  | [] => none
  | quote :: text =>
    if quote = '\x27' ∨ quote = '\x22' then
      (closing? quote false text).map (Prod.map (value quote) id)
    else none

/-- A literal at the start of a text: its value, and what is behind it. -/
def readLiteral? : List Char → Option (Bytes × List Char)
  | [] => none
  | c :: text => readQuoted? value (if c = 'b' ∨ c = 'B' then text else c :: text)

/-- The word is a literal of this value, and nothing else. -/
def Spells (word : String) (bytes : Bytes) : Prop :=
  readLiteral? value word.toList = some (bytes, [])

instance (word : String) (bytes : Bytes) : Decidable (Spells value word bytes) :=
  inferInstanceAs (Decidable (_ = _))

end

variable {value : Char → List Char → Bytes} {quote close : Char} {text rest more : List Char}
  {word : String} {bytes : Bytes}

/-- What is behind the closing quote plays no part in finding it. -/
theorem closing?_eq_some {escaped : Bool} {body : List Char}
    (h : closing? quote escaped text = some (body, rest)) :
    text = body ++ quote :: rest ∧
      ∀ more, closing? quote escaped (body ++ quote :: more) = some (body, more) := by
  induction text generalizing escaped body with
  | nil => simp [closing?] at h
  | cons c text ih =>
    cases escaped with
    | true =>
      simp only [closing?, Option.map_eq_some_iff, Prod.exists] at h
      obtain ⟨inner, behind, hc, rfl, rfl⟩ := h
      obtain ⟨rfl, hmore⟩ := ih hc
      exact ⟨rfl, fun more => by simp [closing?, hmore]⟩
    | false =>
      simp only [closing?] at h
      split at h
      case isTrue hq =>
        obtain ⟨rfl, rfl⟩ := Prod.mk.inj (Option.some.inj h)
        exact ⟨by simp [hq], fun more => by simp [closing?]⟩
      case isFalse hq =>
        simp only [Option.map_eq_some_iff, Prod.exists] at h
        obtain ⟨inner, behind, hc, rfl, rfl⟩ := h
        obtain ⟨rfl, hmore⟩ := ih hc
        exact ⟨rfl, fun more => by simp [closing?, hq, hmore]⟩

/-- A literal in quotes is read off the front of a longer text as well, and takes some of it. -/
theorem readQuoted?_append (h : readQuoted? value text = some (bytes, rest)) (more : List Char) :
    readQuoted? value (text ++ more) = some (bytes, rest ++ more) ∧ rest.length < text.length := by
  cases text with
  | nil => simp [readQuoted?] at h
  | cons quote text =>
    simp only [readQuoted?] at h
    split at h
    case isTrue hq =>
      simp only [Option.map_eq_some_iff, Prod.exists] at h
      obtain ⟨body, behind, hc, rfl, rfl⟩ := h
      obtain ⟨rfl, hmore⟩ := closing?_eq_some hc
      constructor
      · simp [readQuoted?, hq, hmore]
      · simp
        omega
    case isFalse => cases h

theorem readLiteral?_append (h : readLiteral? value text = some (bytes, rest)) :
    readLiteral? value (text ++ more) = some (bytes, rest ++ more) := by
  cases text with
  | nil => simp [readLiteral?] at h
  | cons c text =>
    have hmore := (readQuoted?_append h more).1
    split at hmore <;> simp_all [readLiteral?]

theorem length_lt_of_readLiteral? (h : readLiteral? value text = some (bytes, rest)) :
    rest.length < text.length := by
  cases text with
  | nil => simp [readLiteral?] at h
  | cons c text =>
    have hlen := (readQuoted?_append h []).2
    split at hlen <;> simp_all
    omega

theorem Spells.readLiteral?_append (h : Spells value word bytes) :
    readLiteral? value (word.toList ++ rest) = some (bytes, rest) :=
  ReplaceCall.readLiteral?_append h

/-! Lists of literals. -/

/-- What follows the first literal of a list. -/
def readMore? (value : Char → List Char → Bytes) (close : Char) :
    List Char → Option (List Bytes × List Char)
  | ',' :: ' ' :: text =>
    match _h : readLiteral? value text with
    | some (first, rest) => (readMore? value close rest).map (Prod.map (first :: ·) id)
    | none => none
  | c :: text => if c = close then some ([], text) else none
  | [] => none
termination_by text => text.length
decreasing_by
  have := length_lt_of_readLiteral? _h
  simp
  omega

/-- Literals, or nothing, up to the bracket that closes the list. -/
def readList? (value : Char → List Char → Bytes) (close : Char) (text : List Char) :
    Option (List Bytes × List Char) :=
  match readLiteral? value text with
  | some (first, rest) => (readMore? value close rest).map (Prod.map (first :: ·) id)
  | none => ([close].isPrefixOf? text).map ([], ·)

def readArgument? (value : Char → List Char → Bytes) (text : List Char) :
    Option (Argument × List Char) :=
  match readLiteral? value text with
  | some (bytes, rest) => some (.one bytes, rest)
  | none =>
    match ['['].isPrefixOf? text with
    | some inside => (readList? value ']' inside).map (Prod.map .many id)
    | none =>
      ("array(".toList.isPrefixOf? text).bind fun inside =>
        (readList? value ')' inside).map (Prod.map .many id)

/-- A call with a literal search and a literal replacement, and the text of its subject. -/
structure Call where
  search : Argument
  replacement : Argument
  subject : String

def readCall? (value : Char → List Char → Bytes) (callee text : String) : Option Call := do
  let text ← (callee ++ "(").toList.isPrefixOf? text.toList
  let (search, text) ← readArgument? value text
  let text ← [',', ' '].isPrefixOf? text
  let (replacement, text) ← readArgument? value text
  let text ← [',', ' '].isPrefixOf? text
  if text.getLast? = some ')' then some ⟨search, replacement, .ofList text.dropLast⟩ else none

theorem isPrefixOf?_append (front text : List Char) :
    front.isPrefixOf? (front ++ text) = some text := by
  induction front with
  | nil => rfl
  | cons c front ih => simp [List.isPrefixOf?, ih]

/-! What merging writes is read back. -/

variable {words : List String} {values : List Bytes}

theorem readMore?_append (hclose : close ≠ ',') (h : List.Forall₂ (Spells value) words values) :
    readMore? value close (words.flatMap (fun w => ',' :: ' ' :: w.toList) ++ close :: rest) =
      some (values, rest) := by
  induction h with
  | nil =>
    rw [List.flatMap_nil, List.nil_append, readMore?]
    · rw [if_pos rfl]
    · rintro text rfl
      exact absurd rfl hclose
  | cons head _ ih =>
    rw [List.flatMap_cons, List.append_assoc, List.cons_append, List.cons_append, readMore?,
      head.readLiteral?_append]
    simp [ih]

theorem toList_intercalate_cons (word : String) (words : List String) :
    (", ".intercalate (word :: words)).toList =
      word.toList ++ words.flatMap fun w => ',' :: ' ' :: w.toList := by
  induction words generalizing word with
  | nil => simp
  | cons next words ih =>
    rw [String.intercalate_cons_cons, String.toList_append, String.toList_append, ih]
    simp

theorem readList?_intercalate (hclose : close = ']' ∨ close = ')')
    (h : List.Forall₂ (Spells value) words values) (rest : List Char) :
    readList? value close ((", ".intercalate words).toList ++ close :: rest) =
      some (values, rest) := by
  have hcomma : close ≠ ',' := by rcases hclose with rfl | rfl <;> decide
  cases h with
  | nil =>
    have hnone : readLiteral? value (close :: rest) = none := by
      rcases hclose with rfl | rfl <;> simp [readLiteral?, readQuoted?]
    simp [readList?, hnone, List.isPrefixOf?]
  | cons head tail =>
    rw [toList_intercalate_cons, List.append_assoc, readList?, head.readLiteral?_append]
    simp [readMore?_append hcomma tail]

theorem readArgument?_word (h : Spells value word bytes) :
    readArgument? value (word.toList ++ rest) = some (.one bytes, rest) := by
  rw [readArgument?, h.readLiteral?_append]

theorem readArgument?_renderList (shortArrays : Bool)
    (h : List.Forall₂ (Spells value) words values) :
    readArgument? value ((Piece.renderList words shortArrays).toList ++ rest) =
      some (.many values, rest) := by
  cases shortArrays with
  | true =>
    have hread := readList?_intercalate (.inl rfl) h rest
    simpa [Piece.renderList, readArgument?, readLiteral?, readQuoted?, List.isPrefixOf?] using hread
  | false =>
    have hread := readList?_intercalate (.inr rfl) h rest
    simpa [Piece.renderList, readArgument?, readLiteral?, readQuoted?, List.isPrefixOf?] using hread

/-- What a call is read from: its arguments read one by one. -/
theorem readCall?_eq {callee search replacement subject : String} {s r : Argument}
    (hs : ∀ rest, readArgument? value (search.toList ++ rest) = some (s, rest))
    (hr : ∀ rest, readArgument? value (replacement.toList ++ rest) = some (r, rest)) :
    readCall? value callee
        (callee ++ "(" ++ search ++ ", " ++ replacement ++ ", " ++ subject ++ ")") =
      some ⟨s, r, subject⟩ := by
  have hcallee := isPrefixOf?_append (callee ++ "(").toList
  simp only [String.toList_append] at hcallee
  simp only [readCall?, String.toList_append, List.append_assoc] at hcallee ⊢
  rw [hcallee]
  simp [hs, hr, List.isPrefixOf?]

end PhpLint.ReplaceCall
