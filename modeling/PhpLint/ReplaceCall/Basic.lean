import PhpLint.Tree.Expression

/-!
Calls of `str_replace` with a search, a replacement and a subject.
-/

namespace PhpLint

structure ReplaceCall where
  search : Node
  replacement : Node
  subject : Node
  deriving Inhabited, Repr

namespace ReplaceCall

def functionName : String := "str_replace"

/-- The three arguments of a call, whatever its name. -/
def ofCall? (n : Node) : Option ReplaceCall :=
  if n.kind = .callExpr then
    match n.arguments with
    | [search, replacement, subject] => some ⟨search, replacement, subject⟩
    | _ => none
  else none

def isReplaceCall (n : Node) : Bool := (ofCall? n).isSome && n.isCallTo [functionName]

/-- The call whose result an assignment or a `return` takes, parentheses aside. -/
def valueOf? (n : Node) : Option Node :=
  let value := match n.kind with
    | .assignExpr => n.value?
    | .returnStmt => n.childNodes.head?
    | _ => none
  (value.map Node.unparenthesized).filter isReplaceCall

/-- The one literal that a search array of literals without keys repeats. -/
def repeatedLiteral? (search : Node) : Option String :=
  let literal? (element : Node) : Option String :=
    (element.elementValue?.filter fun value =>
      element.elementKey?.isNone && value.isStringLiteral).map fun value => Text.trim value.text
  match (search.elements.mapM literal?).map List.eraseDups with
  | some [only] => some only
  | _ => none

end ReplaceCall

end PhpLint
