import PhpLint.Parse.Basic

/-!
Fragments: a text that must be exactly one expression, one statement or one token.
-/

namespace PhpLint

inductive FragmentKind where
  | expression
  | statement
  | token
  deriving DecidableEq, Inhabited, Repr

/-- A parsed fragment: a tree of its own and the node of interest in it. -/
structure Fragment where
  tree : Tree
  node : NodeId
  deriving DecidableEq, Inhabited, Repr

inductive FragmentError where
  | rejected (error : ParseError)
  | unscannable (fault : Token.Fault)
  deriving DecidableEq, Inhabited, Repr

namespace Fragment

def refuse {α : Type} (message : String) : Except FragmentError α := .error (.rejected ⟨message, 0⟩)

def tokenTree (text : String) : Except FragmentError Tree :=
  match Token.classify text with
  | .error fault => .error (.unscannable fault)
  | .ok found => match found.filter (!·.isTrivia) with
    | some kind => .ok (Green.node .sourceFile [.token kind text]).toTree
    | none => refuse ("expected a single token, found `" ++ Text.excerpt text.toList ++ "`")

/-- The one statement among the pieces of a file, open tag and comments aside. -/
def onlyStatement? (root : Concrete) : Option Concrete :=
  match root.namedChildren.filter fun c => c.kind != "php_tag" && c.kind != "comment" with
  | [only] => some only
  | _ => none

/-- The text and a semicolon must be one expression statement, which ends with that semicolon. -/
def expressionTree (grammar : Grammar) (text : String) : Except FragmentError Tree :=
  let source := Parse.tagBefore ++ text ++ ";"
  let s : Source := ⟨source.toList, Parse.tagBefore.utf8ByteSize⟩
  match grammar source with
  | none => .error (.rejected Parse.noTree)
  | some root =>
    match Lower.errorsBelow s root with
    | error :: _ => .error (.rejected error)
    | [] =>
      match (onlyStatement? root).filter fun c =>
          c.kind == "expression_statement" && c.stop == source.utf8ByteSize with
      | none => refuse "expected a single expression"
      | some statement =>
        let (green, cursor) :=
          (Lower.lowerBody s statement (source.utf8ByteSize - 1)).run (Lower.start s)
        match cursor.fault with
        | some fault => .error (.unscannable fault)
        | none => .ok green.toTree

def statementTree (grammar : Grammar) (text : String) : Except FragmentError Tree :=
  match Parse.snippet grammar text with
  | .error fault => .error (.unscannable fault)
  | .ok parse => match parse.errors with
    | error :: _ => .error (.rejected error)
    | [] =>
      if (parse.tree.solidChildren parse.tree.root).length = 1 then .ok parse.tree
      else refuse "expected exactly one statement"

def treeOf (grammar : Grammar) : FragmentKind → String → Except FragmentError Tree
  | .token => tokenTree
  | .expression => expressionTree grammar
  | .statement => statementTree grammar

def parse (grammar : Grammar) (text : String) (kind : FragmentKind) :
    Except FragmentError Fragment :=
  match treeOf grammar kind text with
  | .error e => .error e
  | .ok tree => match tree.solidChildren tree.root with
    | node :: _ => .ok ⟨tree, node⟩
    | [] => refuse "empty fragment"

end Fragment

end PhpLint
