import PhpLint.Concrete.Basic
import PhpLint.Text.Bytes
import PhpLint.Text.Letter
import PhpLint.Token.Lexer

/-!
What becomes of each piece of a concrete tree: the kind of node or token it turns into, or that it
leaves no trace of its own. Only the piece and its surroundings decide; nothing is built here.
-/

namespace PhpLint

/-- A text and the number of bytes at its front that take no part. -/
structure Source where
  text : List Char
  base : Nat
  deriving DecidableEq, Inhabited, Repr

/-- The surroundings of a piece: its parent and the kinds of its neighbours. -/
structure Place where
  parent : Option Head
  prev : Option String
  next : Option String
  /-- No name stands before it among its siblings. -/
  firstName : Bool
  deriving DecidableEq, Inhabited, Repr

def Place.parentKind (p : Place) : String := (p.parent.map (·.kind)).getD ""

inductive Treatment where
  /-- One token. -/
  | leaf (kind : Kind)
  /-- A node that holds one token. -/
  | wrapped (node token : Kind)
  /-- A node with the children's nodes. -/
  | composite (kind : Kind)
  /-- The children's nodes without a node around them. -/
  | transparent
  /-- A call whose callee is a keyword. -/
  | keywordCall (node keyword : Kind) (callee : Nat)
  /-- An `else` whose body is an `if`. -/
  | elseIf (body : Nat)
  /-- The targets of a destructuring assignment. -/
  | targets
  deriving DecidableEq, Inhabited, Repr

namespace Treatment

/-- Pieces that become a node of one kind wherever they stand. -/
def nodeKind? : String → Option Kind
  | "expression_statement" | "function_static_declaration" | "exit_statement" => some .exprStmt
  | "compound_statement" | "colon_block" | "declaration_list" | "enum_declaration_list" => some .block
  | "empty_statement" => some .emptyStmt
  | "echo_statement" => some .echoStmt
  | "if_statement" => some .ifStmt
  | "else_if_clause" => some .elseIfClause
  | "else_clause" => some .elseClause
  | "while_statement" => some .whileStmt
  | "do_statement" => some .doWhileStmt
  | "for_statement" => some .forStmt
  | "foreach_statement" => some .foreachStmt
  | "switch_statement" => some .switchStmt
  | "case_statement" | "default_statement" => some .caseClause
  | "try_statement" => some .tryStmt
  | "catch_clause" => some .catchClause
  | "finally_clause" => some .finallyClause
  | "return_statement" => some .returnStmt
  | "break_statement" => some .breakStmt
  | "continue_statement" => some .continueStmt
  | "global_declaration" => some .globalStmt
  | "unset_statement" => some .unsetStmt
  | "declare_statement" => some .declareStmt
  | "named_label_statement" => some .labelStmt
  | "goto_statement" => some .gotoStmt
  | "function_definition" => some .functionDecl
  | "class_declaration" => some .classDecl
  | "interface_declaration" => some .interfaceDecl
  | "trait_declaration" => some .traitDecl
  | "enum_declaration" => some .enumDecl
  | "enum_case" => some .enumCase
  | "base_clause" => some .extendsList
  | "class_interface_clause" => some .implementsList
  | "method_declaration" => some .methodDecl
  | "property_declaration" => some .propertyDecl
  | "const_declaration" => some .constDecl
  | "use_declaration" | "namespace_use_declaration" => some .useDecl
  | "namespace_use_clause" => some .useItem
  | "namespace_definition" => some .namespaceDecl
  | "formal_parameters" => some .paramList
  | "simple_parameter" | "variadic_parameter" | "property_promotion_parameter" => some .param
  | "anonymous_function_use_clause" => some .closureUse
  | "anonymous_function" | "anonymous_function_creation_expression" => some .closureExpr
  | "arrow_function" => some .arrowFnExpr
  | "assignment_expression" | "reference_assignment_expression"
  | "augmented_assignment_expression" => some .assignExpr
  | "binary_expression" => some .binaryExpr
  | "unary_op_expression" | "error_suppression_expression" | "throw_expression"
  | "print_intrinsic" | "clone_expression" | "include_expression"
  | "include_once_expression" | "require_expression" | "require_once_expression" => some .unaryExpr
  | "cast_expression" => some .castExpr
  | "conditional_expression" => some .ternaryExpr
  | "parenthesized_expression" => some .parenExpr
  | "member_call_expression" | "nullsafe_member_call_expression" => some .methodCallExpr
  | "scoped_call_expression" => some .staticCallExpr
  | "member_access_expression" | "nullsafe_member_access_expression" => some .propertyFetch
  | "scoped_property_access_expression" => some .staticPropertyFetch
  | "class_constant_access_expression" => some .classConstFetch
  | "subscript_expression" => some .arrayAccessExpr
  | "object_creation_expression" => some .newExpr
  | "array_creation_expression" => some .arrayExpr
  | "array_element_initializer" => some .arrayElement
  | "arguments" => some .argList
  | "match_expression" => some .matchExpr
  | "match_conditional_expression" | "match_default_expression" => some .matchArm
  | "yield_expression" => some .yieldExpr
  | "dynamic_variable_name" => some .variableExpr
  | _ => none

def typeKinds : List String := [
  "named_type", "primitive_type", "optional_type", "union_type", "intersection_type",
  "disjunctive_normal_form_type", "bottom_type", "type_list"]

/-- Statements whose condition is written in bare parentheses. -/
def conditionParents : List String := [
  "if_statement", "else_if_clause", "while_statement", "do_statement", "switch_statement",
  "match_expression"]

/-- Pieces whose own name declares something. -/
def declaringParents : List String := [
  "function_definition", "method_declaration", "class_declaration", "interface_declaration",
  "trait_declaration", "enum_declaration", "enum_case", "namespace_definition"]

def isNameKind (kind : String) : Bool :=
  kind == "name" || kind == "namespace_name" || kind == "qualified_name"

/-- Declared names are told from references; names of arguments and labels are neither. -/
def ofName (place : Place) (head : Head) : Treatment :=
  let parentKind := place.parentKind
  let namedArgument :=
    parentKind == "argument" && (head.field == some "name" || place.next == some ":")
  if namedArgument || parentKind == "named_label_statement" || parentKind == "goto_statement" then
    .leaf .ident
  else
    let declared :=
      if declaringParents.contains parentKind then
        match head.field with
        | some field => field == "name"
        | none => place.firstName
      else if parentKind == "const_element" then (place.parent.map (·.start)) == some head.start
      else parentKind == "namespace_aliasing_clause" || head.field == some "alias"
        || (parentKind == "namespace_use_clause" && place.prev.any (·.toLower == "as"))
    .wrapped (if declared then .declaredName else .nameRef) .ident

/-- The calls `isset(...)` and `empty(...)` have node kinds of their own. -/
def ofCall (source : List Char) (c : Concrete) : Treatment :=
  match (c.fieldIndex? "function").or (c.children.findIdx? (·.head.named)) with
  | none => .composite .callExpr
  | some callee =>
    let name := (c.children[callee]?.map fun n => Text.slice source n.start n.stop).getD []
    match (String.ofList name).toLower with
    | "isset" => .keywordCall .issetExpr .issetKw callee
    | "empty" => .keywordCall .emptyExpr .emptyKw callee
    | _ => .composite .callExpr

/-- An `else` directly before an `if` is an else-if. -/
def ofElse (c : Concrete) : Treatment :=
  let body := (c.fieldIndex? "body").or
    (c.children.findIdx? fun n => n.head.named && n.kind != "comment")
  match body with
  | some i => if c.children[i]?.any (·.kind == "if_statement") then .elseIf i
    else .composite .elseClause
  | none => .composite .elseClause

def scanned (source : List Char) (head : Head) : Except Token.Fault (Option Kind) :=
  Token.classify (.ofList (Text.slice source head.start head.stop))

/-- A piece without children that has no kind of its own is classified by its text. -/
def ofLeaf (source : List Char) (head : Head) : Except Token.Fault Treatment :=
  let unknown := if (Text.slice source head.start head.stop).head?.any Text.isLetter then .ident
    else .errorToken
  (scanned source head).map fun kind => .leaf (kind.getD unknown)

def of (source : List Char) (place : Place) (c : Concrete) : Except Token.Fault Treatment :=
  match c.kind with
  | "comment" | "attribute_list" => .ok (.leaf .comment)
  | "php_tag" => .ok (.leaf .openTag)
  | "text" => .ok (.leaf .inlineHtml)
  | "variable_name" => .ok (.wrapped .variableExpr .varName)
  | "integer" => .ok (.wrapped .literal .intNumber)
  | "float" => .ok (.wrapped .literal .floatNumber)
  | "string" | "encapsed_string" => .ok (.wrapped .literal .string)
  | "heredoc" | "nowdoc" => .ok (.wrapped .literal .heredoc)
  | "boolean" =>
    let text := String.ofList (Text.slice source c.start c.stop)
    .ok (.wrapped .literal (if text.toLower == "true" then .trueKw else .falseKw))
  | "null" => .ok (.wrapped .literal .nullKw)
  | "cast_type" => .ok (.leaf .ident)
  | "name" | "qualified_name" | "namespace_name" => .ok (ofName place c.head)
  | "relative_scope" =>
    (scanned source c.head).map fun kind => .wrapped .nameRef (kind.getD .ident)
  | "shell_command_expression" => .ok (.wrapped .shellExpr .shellCommand)
  | "else_clause" => .ok (ofElse c)
  | "function_call_expression" => .ok (ofCall source c)
  | "update_expression" =>
    let before := c.children.head?.any fun op => op.kind == "++" || op.kind == "--"
    .ok (.composite (if before then .unaryExpr else .postfixExpr))
  | "static_variable_declaration" =>
    .ok (if c.children.any (·.kind == "=") then .composite .assignExpr else .transparent)
  | "list_literal" => .ok .targets
  | kind =>
    if typeKinds.contains kind then .ok (.wrapped .typeRef .ident)
    else if kind == "parenthesized_expression" && conditionParents.contains place.parentKind then
      .ok .transparent
    else if kind == "namespace_use_clause" && place.parentKind == "namespace_use_group" then
      .ok .transparent
    else match nodeKind? kind with
      | some mapped => .ok (.composite mapped)
      | none => if c.children.isEmpty then ofLeaf source c.head else .ok .transparent

end Treatment

end PhpLint
