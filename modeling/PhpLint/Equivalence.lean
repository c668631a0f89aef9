import PhpLint.Literal.Binary64
import PhpLint.Literal.Quoted
import PhpLint.Tree.Expression

/-!
Equivalence of expressions. What a node computes is read off as its `Code`, in which white space,
comments and parentheses no longer occur and an array is its elements however it is spelled. Two
codes agree when they are built alike from tokens and names that agree: literals by value,
keywords and operators by kind, names in the way PHP resolves them.
-/

namespace PhpLint

inductive Code where
  | token (kind : Kind) (text : String)
  /-- A literal is its first token. -/
  | literal (first : Option (Kind × Option String))
  /-- A name, and whether its place lets its case vary. -/
  | name (bare : String) (folds : Bool)
  | array (elements : List (List Code))
  | composite (kind : Kind) (operator : Option Kind) (children : List Code)
  deriving Inhabited, Repr

namespace Code

/-- Whether a name among the children of a node may vary in case: names of functions, methods and
classes may, properties and constants may not. `isFirst` tells whether the name is the first node
among the children. -/
def foldsCase (parent : Kind) (operator : Option Kind) (isFirst : Bool) : Bool :=
  match parent with
  | .callExpr | .newExpr | .methodCallExpr | .staticCallExpr => true
  | .classConstFetch | .staticPropertyFetch => isFirst
  | .binaryExpr => operator == some .instanceofKw && !isFirst
  | _ => false

/-- A name without surrounding white space and leading separators. -/
def bareName (text : String) : String := ClassName.dropSeparators (Text.trim text)

/-- What the code of a node is made of. -/
inductive Shape where
  /-- Parentheses, whose code is that of the operand if they have one. -/
  | group
  | token (text : String)
  | literal
  | name
  | array
  | composite
  deriving DecidableEq, Inhabited, Repr

def shapeOf (kind : Kind) (word : Option String) : Shape :=
  match kind, word with
  | .parenExpr, _ => .group
  | _, some text => .token text
  | .literal, none => .literal
  | .nameRef, none => .name
  | .arrayExpr, none => .array
  | _, none => .composite

mutual

/-- The code of a node; `folds` tells whether a name in its place may vary in case. -/
def of (folds : Bool) : Node → Code
  | ⟨id, kind, word, children⟩ =>
    let n : Node := ⟨id, kind, word, children⟩
    match shapeOf kind word with
    | .group => match ofOperand children with
      | some inner => inner
      | none => match word with
        | some text => .token kind text
        | none => .composite kind n.operatorKind? (ofAll kind n.operatorKind? true children)
    | .token text => .token kind text
    | .literal => .literal (n.solidChildren.head?.map fun t => (t.kind, t.token))
    | .name => .name (bareName n.text) folds
    | .array => .array (ofElements children)
    | .composite => .composite kind n.operatorKind? (ofAll kind n.operatorKind? true children)

/-- The codes of the children of a node. `first` tells whether no node came before. -/
def ofAll (parent : Kind) (operator : Option Kind) (first : Bool) : List Node → List Code
  | [] => []
  | c :: cs =>
    let others := ofAll parent operator (first && c.isToken) cs
    if c.isTrivia then others
    else of (foldsCase parent operator (first && !c.isToken)) c :: others

/-- The code inside parentheses, if a node stands there. -/
def ofOperand : List Node → Option Code
  | [] => none
  | c :: cs => if c.isToken then ofOperand cs else some (of false c)

/-- The codes of the elements of an array. -/
def ofElements : List Node → List (List Code)
  | [] => []
  | ⟨_, kind, _, inner⟩ :: cs =>
    if kind = .arrayElement then ofAll .arrayElement none true inner :: ofElements cs
    else ofElements cs

end

def integersAgree (x y : String) : Bool :=
  match Literal.integerValue? x, Literal.integerValue? y with
  | some m, some n => m == n
  | _, _ => x == y

def floatsAgree (x y : String) : Bool :=
  match Literal.floatValue? x, Literal.floatValue? y with
  | some m, some n => m.same n
  | _, _ => x == y

/-- Agreement of two tokens of one kind. -/
def tokensAgree (kind : Kind) (x y : String) : Bool :=
  match kind with
  | .string => Literal.unquote x == Literal.unquote y
  | .intNumber => integersAgree x y
  | .floatNumber => floatsAgree x y
  | _ => kind.isKeyword || kind.isOperatorOrPunctuation || x == y

def literalsAgree : Option (Kind × Option String) → Option (Kind × Option String) → Bool
  | some (k, some x), some (l, some y) => k == l && tokensAgree k x y
  | _, _ => false

def namesAgree (x : String) (xFolds : Bool) (y : String) (yFolds : Bool) : Bool :=
  if xFolds && yFolds then x.toLower == y.toLower else x == y

mutual

def agree : Code → Code → Bool
  | .token k x, .token l y => k == l && tokensAgree k x y
  | .literal x, .literal y => literalsAgree x y
  | .name x f, .name y g => namesAgree x f y g
  | .array xs, .array ys => agreeElements xs ys
  | .composite k o xs, .composite l p ys => k == l && o == p && agreeAll xs ys
  | _, _ => false

def agreeAll : List Code → List Code → Bool
  | [], [] => true
  | x :: xs, y :: ys => agree x y && agreeAll xs ys
  | _, _ => false

def agreeElements : List (List Code) → List (List Code) → Bool
  | [], [] => true
  | x :: xs, y :: ys => agreeAll x y && agreeElements xs ys
  | _, _ => false

end

end Code

namespace Tree

/-- Whether a name in the place of a node may vary in case. -/
def foldsCase (t : Tree) (id : NodeId) : Bool :=
  match t.parent? id with
  | none => false
  | some p => Code.foldsCase (t.kind p) (t.node p).operatorKind? ((t.childNodes p).head? == some id)

/-- The code of a node in its place. -/
def code (t : Tree) (id : NodeId) : Code := Code.of (t.foldsCase id) (t.node id)

/-- Equivalence of nodes of two trees. -/
def equivalentAcross (t : Tree) (a : NodeId) (u : Tree) (b : NodeId) : Bool :=
  (t.code a).agree (u.code b)

def equivalent (t : Tree) (a b : NodeId) : Bool := t.equivalentAcross a t b

end Tree

end PhpLint
