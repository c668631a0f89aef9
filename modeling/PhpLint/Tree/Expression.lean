import PhpLint.Hierarchy.ClassName
import PhpLint.Tree.Node

/-!
Parts of expressions: what is called with which arguments, operators and operands, literals and
arrays. A node without the expected shape has no such part.
-/

namespace PhpLint.Node

/-! Calls. -/

/-- The name of the called function or method. -/
def calleeRef? (n : Node) : Option Node :=
  match n.kind with
  | .callExpr => n.childNodes[0]?.filter (·.kind == .nameRef)
  | .methodCallExpr | .staticCallExpr => n.childNodes[1]?.filter (·.kind == .nameRef)
  | _ => none

/-- The name as written, without a leading namespace separator. -/
def calleeName? (n : Node) : Option String :=
  n.calleeRef?.map fun name => ClassName.dropSeparators (Text.trim name.text)

/-- Function names are matched without regard to ASCII case. -/
def isCallTo (n : Node) (names : List String) : Bool :=
  n.calleeName?.any fun name => names.any fun known => name.toLower == known.toLower

def argList? (n : Node) : Option Node := n.firstOfKind? .argList

/-- The arguments of a call, of `new`, `isset` or `empty`, in order. -/
def arguments (n : Node) : List Node := (n.argList?.map childNodes).getD []

/-- The object of a method call or of a property, the class of a static member. -/
def receiver? (n : Node) : Option Node :=
  match n.kind with
  | .methodCallExpr | .propertyFetch | .staticCallExpr | .classConstFetch | .staticPropertyFetch =>
    n.childNodes[0]?
  | _ => none

/-! Operators. -/

def operator? (n : Node) : Option Node :=
  match n.kind with
  | .binaryExpr | .unaryExpr | .postfixExpr | .assignExpr => n.solidChildren.find? (·.isToken)
  | _ => none

def operatorKind? (n : Node) : Option Kind := n.operator?.map (·.kind)

def left? (n : Node) : Option Node :=
  match n.kind with
  | .binaryExpr | .assignExpr => n.childNodes[0]?
  | _ => none

def right? (n : Node) : Option Node :=
  match n.kind with
  | .binaryExpr | .assignExpr => n.childNodes[1]?
  | _ => none

/-- The operand of a unary, postfix, cast or parenthesised expression. -/
def operand? (n : Node) : Option Node :=
  match n.kind with
  | .unaryExpr | .postfixExpr | .castExpr | .parenExpr => n.childNodes[0]?
  | _ => none

theorem sizeOf_left? {n c : Node} (h : n.left? = some c) : sizeOf c < sizeOf n := by
  unfold left? at h
  split at h
  · exact sizeOf_lt_of_childNodes (List.mem_of_getElem? h)
  · exact sizeOf_lt_of_childNodes (List.mem_of_getElem? h)
  · cases h

theorem sizeOf_operand? {n c : Node} (h : n.operand? = some c) : sizeOf c < sizeOf n := by
  unfold operand? at h
  split at h
  · exact sizeOf_lt_of_childNodes (List.mem_of_getElem? h)
  · exact sizeOf_lt_of_childNodes (List.mem_of_getElem? h)
  · exact sizeOf_lt_of_childNodes (List.mem_of_getElem? h)
  · exact sizeOf_lt_of_childNodes (List.mem_of_getElem? h)
  · cases h

/-- Strips any number of enclosing parentheses. -/
def unparenthesized (n : Node) : Node :=
  if n.kind = .parenExpr then
    match _h : n.operand? with
    | some inner => unparenthesized inner
    | none => n
  else n
termination_by sizeOf n
decreasing_by exact sizeOf_operand? ‹_›

def target? (n : Node) : Option Node := if n.kind = .assignExpr then n.childNodes[0]? else none

def value? (n : Node) : Option Node := if n.kind = .assignExpr then n.childNodes[1]? else none

/-- The name of a variable, without the dollar sign. -/
def variableName? (n : Node) : Option String :=
  if n.kind = .variableExpr then
    ((n.tokenOfKind? .varName).bind (·.token)).map fun text =>
      .ofList (text.toList.dropWhile (· == '$'))
  else none

/-- The variables of that name in a subtree. -/
def variableReferences (scope : Node) (name : String) : List Node :=
  scope.preorder.filter fun n => n.variableName? == some name

/-! Literals and arrays. -/

def literalToken? (n : Node) : Option Node :=
  if n.kind = .literal then n.solidChildren.head? else none

def isStringLiteral (n : Node) : Bool := n.literalToken?.any (·.kind == .string)

/-- A literal that is one of the given keywords. -/
def isKeywordLiteral (n : Node) (kinds : List Kind) : Bool :=
  n.literalToken?.any fun t => kinds.contains t.kind

def elements (n : Node) : List Node :=
  if n.kind = .arrayExpr then n.childrenOfKind .arrayElement else []

def elementKey? (n : Node) : Option Node :=
  if (n.tokenOfKind? .fatArrow).isSome then n.childNodes[0]? else none

def elementValue? (n : Node) : Option Node := n.childNodes.getLast?

/-- An array written `[...]` and not `array(...)`. -/
def isShortArray (n : Node) : Bool := n.solidChildren.head?.any (·.kind == .lBrack)

end PhpLint.Node
