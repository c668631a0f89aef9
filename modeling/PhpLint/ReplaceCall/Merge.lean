import PhpLint.ReplaceCall.Basic

/-!
One call for two. The merged call searches for what the earlier call searched for, then for what
the later one did, in the subject of the earlier; its replacements are lined up with its searches.
-/

namespace PhpLint.ReplaceCall

/-- An argument as merging sees it: a value, or a list with the texts of its elements. A list that
was written as one has its text, and whether that is in brackets. -/
inductive Piece where
  | scalar (text : String) (literal : Bool)
  | list (elements : List String) (written : Option (String × Bool))
  deriving DecidableEq, Inhabited, Repr

namespace Piece

def textOf (n : Node) : String := Text.trim n.text

def read (n : Node) : Piece :=
  if n.kind = .arrayExpr then .list (n.elements.map textOf) (some (textOf n, n.isShortArray))
  else .scalar (textOf n) n.isStringLiteral

/-- A list of a single literal counts as that literal. -/
def unboxed (n : Node) : Piece :=
  match n.elements with
  | [element] =>
    if element.elementKey?.isNone then
      match element.elementValue?.filter Node.isStringLiteral with
      | some value => .scalar (textOf value) true
      | none => read n
    else read n
  | _ => read n

def elements : Piece → List String
  | scalar text _ => [text]
  | list elements _ => elements

def renderList (elements : List String) (shortArrays : Bool) : String :=
  let body := ", ".intercalate elements
  if shortArrays then "[" ++ body ++ "]" else "array(" ++ body ++ ")"

def render (shortArrays : Bool) : Piece → String
  | scalar text _ => text
  | list elements (some (text, short)) =>
    if short = shortArrays then text else renderList elements shortArrays
  | list elements none => renderList elements shortArrays

/-- The elements of the earlier call come first. -/
def append (earlier later : Piece) : Piece := .list (earlier.elements ++ later.elements) none

end Piece

/-- A literal replacement of several searches, once for each of them. -/
def expandedReplacement (c : ReplaceCall) : Piece :=
  let count := c.search.elements.length
  if c.replacement.isStringLiteral && 1 < count then
    .list (List.replicate count (Piece.textOf c.replacement)) none
  else .read c.replacement

/-- Two calls with one and the same literal replacement keep it. -/
def mergedReplacement (earlier later : ReplaceCall) : Piece :=
  let separate := Piece.append earlier.expandedReplacement later.expandedReplacement
  match Piece.unboxed later.replacement, Piece.unboxed earlier.replacement with
  | .scalar text true, .scalar other true => if text = other then .scalar text true else separate
  | _, _ => separate

/-- The text of the call that does the work of `earlier` and then of `later`. -/
def mergedText (callee : String) (earlier later : ReplaceCall) (shortArrays : Bool) : String :=
  let search := Piece.append (.read earlier.search) (.read later.search)
  callee ++ "(" ++ search.render shortArrays ++ ", "
    ++ (mergedReplacement earlier later).render shortArrays ++ ", "
    ++ (Piece.read earlier.subject).render shortArrays ++ ")"

end PhpLint.ReplaceCall
