import Mathlib.Data.List.Forall2
import PhpLint.Equivalence
import PhpLint.Token.Basic

/-! What a subtree says, formatting aside: its tokens in order, keywords in lower case, literals by
value, names bare, an array in brackets whichever way it is written. Codes that agree are worded
alike. A code remembers of a keyword or an operator only the kind, so that its wording has to take
one spelling for each; for the four words that share a kind of their own that spelling is a
parameter. -/

namespace PhpLint

/-- A token, up to the differences that are none. -/
inductive Word where
  | spelled (kind : Kind) (text : String)
  | string (value : String)
  | integer (value : Int)
  | float (value : Literal.Binary64)
  /-- A name, and whether its case may vary. -/
  | name (bare : String) (folds : Bool)
  deriving DecidableEq, Repr

namespace Word

/-- Two words that count as one: numbers that compare as equal, names that differ in case only where
both may. -/
def Same : Word → Word → Prop
  | .float m, .float n => m.same n = true
  | .name x f, .name y g => x = y ∨ (f = true ∧ g = true ∧ x.toLower = y.toLower)
  | v, w => v = w

instance : DecidableRel Same
  | .float m, .float n => inferInstanceAs (Decidable (m.same n = true))
  | .name x f, .name y g =>
    inferInstanceAs (Decidable (x = y ∨ (f = true ∧ g = true ∧ x.toLower = y.toLower)))
  | .spelled kind x, w => inferInstanceAs (Decidable (.spelled kind x = w))
  | .string x, w => inferInstanceAs (Decidable (.string x = w))
  | .integer n, w => inferInstanceAs (Decidable (.integer n = w))
  | .float _, .spelled .. | .float _, .string _ | .float _, .integer _ | .float _, .name .. =>
    .isFalse nofun
  | .name .., .spelled .. | .name .., .string _ | .name .., .integer _ | .name .., .float _ =>
    .isFalse nofun

/-- `die` is another word for `exit`. -/
def keywordText (text : String) : String :=
  if text.toLower = "die" then "exit" else text.toLower

/-- `<>` is another sign for `!=`. -/
def operatorText (text : String) : String := if text = "<>" then "!=" else text

def ofToken (kind : Kind) (text : String) : Word :=
  if kind.isKeyword then .spelled kind (keywordText text)
  else if kind.isOperatorOrPunctuation then .spelled kind (operatorText text)
  else match kind with
    | .string => .string (Literal.unquote text)
    | .intNumber => (Literal.integerValue? text).elim (.spelled kind text) .integer
    | .floatNumber => (Literal.floatValue? text).elim (.spelled kind text) .float
    | _ => .spelled kind text

/-- Whether a name among the children of a node names a called function, a method or a class.
`isFirst` tells whether it is the first node among them, `prev` what stands before it. -/
def folds (parent : Kind) (operator : Option Kind) (isFirst : Bool) (prev : Option Kind) : Bool :=
  match parent with
  | .callExpr | .newExpr => true
  | .methodCallExpr => prev == some .arrow || prev == some .nullsafeArrow
  | .staticCallExpr => isFirst || prev == some .colon2
  | .classConstFetch | .staticPropertyFetch => isFirst
  | .binaryExpr => operator == some .instanceofKw && !isFirst
  | _ => false

def openBracket : Word := .ofToken .lBrack "["

def closeBracket : Word := .ofToken .rBrack "]"

def separator : Word := .ofToken .comma ","

/-- The children of a node, each with its kind and its words. -/
abbrev Parts := List (Kind × List Word)

/-- Without the comma before the closing bracket, and closed by a bracket. -/
def closed : Parts → Parts
  | [] => []
  | [(kind, ws)] => [if kind = .rParen then (.rBrack, [closeBracket]) else (kind, ws)]
  | [(.comma, _), (.rParen, _)] => [(.rBrack, [closeBracket])]
  | [(.comma, _), (.rBrack, ws)] => [(.rBrack, ws)]
  | part :: parts => part :: closed parts

/-- An array that is opened by a word and a parenthesis is written in brackets. -/
def bracketed (parts : Parts) : Parts :=
  match parts with
  | (word, _) :: (opening, _) :: rest =>
    if (word = .arrayKw ∨ word = .listKw) ∧ opening = .lParen then
      (.lBrack, [openBracket]) :: closed rest
    else closed parts
  | _ => closed parts

/-- The words of a node from those of its children. -/
def layout (kind : Kind) (parts : Parts) : List Word :=
  match kind with
  | .parenExpr => (parts.filter fun s => s.1 != .lParen && s.1 != .rParen).flatMap (·.2)
  | .arrayExpr => (bracketed parts).flatMap (·.2)
  | _ => parts.flatMap (·.2)

end Word

namespace Node

mutual

/-- The words of a subtree; `folds` tells whether a name in its place may vary in case. -/
def wording (folds : Bool) : Node → List Word
  | ⟨id, kind, token, children⟩ =>
    match token with
    | some text => if kind.isTrivia then [] else [.ofToken kind text]
    | none =>
      if kind = .nameRef then [.name (Code.bareName (textAll children)) folds]
      else Word.layout kind
        (wordingAll kind (operatorKind? ⟨id, kind, none, children⟩) true none children)

/-- The words of the children of a node, white space and comments aside. -/
def wordingAll (parent : Kind) (operator : Option Kind) (first : Bool) (prev : Option Kind) :
    List Node → Word.Parts
  | [] => []
  | c :: cs =>
    if c.isTrivia then wordingAll parent operator (first && c.isToken) prev cs
    else (c.kind, wording (Word.folds parent operator (first && !c.isToken) prev) c) ::
      wordingAll parent operator (first && c.isToken) (some c.kind) cs

end

end Node

namespace Code

variable {w : String}

/-- The first spelling of a keyword or an operator of that kind. -/
def firstSpelling (kind : Kind) : String :=
  (((Kind.keywords ++ Token.operators).find? (·.2 == kind)).map (·.1)).getD ""

/-- The spelling of a keyword or an operator of that kind, `w` for the words that include a file. -/
def spelling (w : String) (kind : Kind) : String :=
  if kind = .includeKw then w else firstSpelling kind

def tokenWording (w : String) (kind : Kind) (text : String) : List Word :=
  if kind.isTrivia then []
  else if kind.isKeyword || kind.isOperatorOrPunctuation then [.spelled kind (spelling w kind)]
  else [.ofToken kind text]

mutual

/-- The words that a code stands for. -/
def wording (w : String) : Code → List Word
  | .token kind text => tokenWording w kind text
  | .literal (some (kind, some text)) => tokenWording w kind text
  | .literal _ => []
  | .name bare folds => [.name bare folds]
  | .array elements => Word.openBracket ::
      ([Word.separator].intercalate (wordingElements w elements) ++ [Word.closeBracket])
  | .composite _ _ children => wordingAll w children

def wordingAll (w : String) : List Code → List Word
  | [] => []
  | c :: cs => wording w c ++ wordingAll w cs

def wordingElements (w : String) : List (List Code) → List (List Word)
  | [] => []
  | e :: es => wordingAll w e :: wordingElements w es

end

theorem ofToken_same {kind : Kind} {x y : String} (hkeyword : kind.isKeyword = false)
    (hoperator : kind.isOperatorOrPunctuation = false) (h : tokensAgree kind x y = true) :
    (Word.ofToken kind x).Same (.ofToken kind y) := by
  unfold tokensAgree at h
  simp only [Word.ofToken, hkeyword, hoperator, Bool.false_eq_true, if_false]
  split at h
  next => exact congrArg Word.string (beq_iff_eq.1 h)
  next =>
    unfold integersAgree at h
    cases hx : Literal.integerValue? x <;> cases hy : Literal.integerValue? y <;>
      simp_all [Word.Same]
  next =>
    unfold floatsAgree at h
    cases hx : Literal.floatValue? x <;> cases hy : Literal.floatValue? y <;>
      simp_all [Word.Same]
  next hstring hinteger hfloat =>
    have htext : x = y := by simpa [hkeyword, hoperator] using h
    subst htext
    cases kind <;> first | contradiction | rfl

theorem tokenWording_same {kind : Kind} {x y : String} (h : tokensAgree kind x y = true) :
    List.Forall₂ Word.Same (tokenWording w kind x) (tokenWording w kind y) := by
  unfold tokenWording
  split
  · exact .nil
  split
  · exact .cons rfl .nil
  next hfixed =>
    rw [Bool.or_eq_true, not_or, Bool.not_eq_true, Bool.not_eq_true] at hfixed
    exact .cons (ofToken_same hfixed.1 hfixed.2 h) .nil

/-- A separator between the parts keeps parts that are worded alike alike. -/
theorem intercalate_same {xs ys : List (List Word)} {v : Word} (hv : v.Same v)
    (h : List.Forall₂ (List.Forall₂ Word.Same) xs ys) :
    List.Forall₂ Word.Same ([v].intercalate xs) ([v].intercalate ys) := by
  induction h with
  | nil => exact .nil
  | @cons x y xs ys hxy hrest ih =>
    cases hrest with
    | nil => simpa only [List.intercalate_singleton] using hxy
    | cons hxy' hrest =>
      rw [List.intercalate_cons_cons, List.intercalate_cons_cons]
      exact List.rel_append (List.rel_append hxy (.cons hv .nil)) ih

theorem literal_same {x y : Option (Kind × Option String)} (h : literalsAgree x y = true) :
    List.Forall₂ Word.Same ((literal x).wording w) ((literal y).wording w) := by
  unfold literalsAgree at h
  split at h
  next k x l y =>
    rw [Bool.and_eq_true, beq_iff_eq] at h
    obtain ⟨rfl, h⟩ := h
    exact tokenWording_same h
  next => cases h

theorem name_same {x y : String} {f g : Bool} (h : namesAgree x f y g = true) :
    (Word.name x f).Same (.name y g) := by
  unfold namesAgree at h
  split at h
  next hfolds =>
    rw [Bool.and_eq_true] at hfolds
    exact .inr ⟨hfolds.1, hfolds.2, beq_iff_eq.1 h⟩
  next => exact .inl (beq_iff_eq.1 h)

@[elab_as_elim]
theorem induction {motive : Code → Prop} (token : ∀ kind text, motive (.token kind text))
    (literal : ∀ first, motive (.literal first)) (name : ∀ bare folds, motive (.name bare folds))
    (array : ∀ elements, (∀ e ∈ elements, ∀ c ∈ e, motive c) → motive (.array elements))
    (composite : ∀ kind operator children, (∀ c ∈ children, motive c) →
      motive (.composite kind operator children))
    (c : Code) : motive c := by
  cases c with
  | token kind text => exact token kind text
  | literal first => exact literal first
  | name bare folds => exact name bare folds
  | array elements =>
    exact array elements fun e he c hc => induction token literal name array composite c
  | composite kind operator children =>
    exact composite kind operator children fun c hc => induction token literal name array composite c
termination_by sizeOf c
decreasing_by
  · have := List.sizeOf_lt_of_mem he
    have := List.sizeOf_lt_of_mem hc
    simp only [Code.array.sizeOf_spec]
    omega
  · have := List.sizeOf_lt_of_mem hc
    simp only [Code.composite.sizeOf_spec]
    omega

theorem wordingAll_same {xs ys : List Code} (hxs : ∀ x ∈ xs, ∀ y, x.agree y = true →
    List.Forall₂ Word.Same (x.wording w) (y.wording w)) (h : agreeAll xs ys = true) :
    List.Forall₂ Word.Same (wordingAll w xs) (wordingAll w ys) := by
  induction xs generalizing ys with
  | nil =>
    cases ys with
    | nil => exact .nil
    | cons y ys => cases h
  | cons x xs ih =>
    cases ys with
    | nil => cases h
    | cons y ys =>
      rw [agreeAll, Bool.and_eq_true] at h
      rw [List.forall_mem_cons] at hxs
      exact List.rel_append (hxs.1 y h.1) (ih hxs.2 h.2)

theorem wordingElements_same {xs ys : List (List Code)} (hxs : ∀ e ∈ xs, ∀ x ∈ e, ∀ y,
    x.agree y = true → List.Forall₂ Word.Same (x.wording w) (y.wording w))
    (h : agreeElements xs ys = true) :
    List.Forall₂ (List.Forall₂ Word.Same) (wordingElements w xs) (wordingElements w ys) := by
  induction xs generalizing ys with
  | nil =>
    cases ys with
    | nil => exact .nil
    | cons y ys => cases h
  | cons x xs ih =>
    cases ys with
    | nil => cases h
    | cons y ys =>
      rw [agreeElements, Bool.and_eq_true] at h
      rw [List.forall_mem_cons] at hxs
      exact .cons (wordingAll_same hxs.1 h.1) (ih hxs.2 h.2)

/-- Codes that agree are worded alike. -/
theorem wording_same {x y : Code} (h : x.agree y = true) :
    List.Forall₂ Word.Same (x.wording w) (y.wording w) := by
  induction x using Code.induction generalizing y with
  | token k x =>
    cases y <;> simp only [agree, Bool.false_eq_true] at h
    rw [Bool.and_eq_true, beq_iff_eq] at h
    obtain ⟨rfl, h⟩ := h
    exact tokenWording_same h
  | literal x =>
    cases y <;> simp only [agree, Bool.false_eq_true] at h
    exact literal_same h
  | name x f =>
    cases y <;> simp only [agree, Bool.false_eq_true] at h
    exact .cons (name_same h) .nil
  | array xs ih =>
    cases y <;> simp only [agree, Bool.false_eq_true] at h
    exact .cons rfl (List.rel_append (intercalate_same (by decide) (wordingElements_same
      (fun e he x hx y => ih e he x hx) h)) (.cons rfl .nil))
  | composite k o xs ih =>
    cases y <;> simp only [agree, Bool.false_eq_true] at h
    rw [Bool.and_eq_true] at h
    exact wordingAll_same (fun x hx y => ih x hx) h.2

end Code

end PhpLint
