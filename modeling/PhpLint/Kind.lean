/-!
Kinds of tokens and nodes of a PHP syntax tree. One closed enumeration covers both: every kind
listed before `sourceFile` is a token kind, every kind from there on is a node kind.
-/

namespace PhpLint

inductive Kind where
  -- trivia and markup
  | whitespace | comment | inlineHtml | openTag | closeTag
  -- atoms
  | varName | ident | string | intNumber | floatNumber | heredoc | shellCommand
  -- punctuation
  | lParen | rParen | lBrack | rBrack | lCurly | rCurly | semicolon | comma | arrow
  | nullsafeArrow | colon2 | fatArrow | question | colon | ellipsis | atSign | dollar | backslash
  -- assignment operators
  | eq | plusEq | minusEq | starEq | slashEq | dotEq | percentEq | question2Eq | star2Eq | shlEq
  | shrEq | ampEq | pipeEq | caretEq
  -- operators
  | amp2 | pipe2 | bang | eq2 | eq3 | neq | neq2 | lt | gt | lteq | gteq | plus | minus | star
  | slash | percent | dot | amp | pipe | caret | tilde | star2 | shl | shr | spaceship | question2
  | plus2 | minus2
  -- keywords
  | abstractKw | andKw | arrayKw | asKw | breakKw | caseKw | catchKw | classKw | cloneKw | constKw
  | continueKw | declareKw | defaultKw | doKw | echoKw | elseKw | elseifKw | emptyKw | endforKw
  | endforeachKw | endifKw | endswitchKw | endwhileKw | enumKw | exitKw | extendsKw | falseKw
  | finalKw | finallyKw | fnKw | forKw | foreachKw | functionKw | globalKw | gotoKw | ifKw
  | implementsKw | includeKw | instanceofKw | insteadofKw | interfaceKw | issetKw | listKw
  | matchKw | namespaceKw | newKw | nullKw | orKw | printKw | privateKw | protectedKw | publicKw
  | returnKw | staticKw | switchKw | throwKw | traitKw | trueKw | tryKw | unsetKw | useKw
  | whileKw | xorKw | yieldKw
  -- text the lexer could not place
  | errorToken
  -- nodes
  | sourceFile | block | exprStmt | emptyStmt | echoStmt | ifStmt | elseIfClause | elseClause
  | forStmt | foreachStmt | whileStmt | doWhileStmt | returnStmt | breakStmt | tryStmt
  | catchClause | finallyClause | switchStmt | caseClause | globalStmt | continueStmt | unsetStmt
  | declareStmt | labelStmt | gotoStmt | functionDecl | methodDecl | classDecl | interfaceDecl
  | traitDecl | enumDecl | enumCase | propertyDecl | constDecl | namespaceDecl | useDecl | useItem
  | extendsList | implementsList | paramList | param | closureUse | typeRef | assignExpr
  | binaryExpr | unaryExpr | postfixExpr | castExpr | ternaryExpr | parenExpr | callExpr
  | methodCallExpr | staticCallExpr | propertyFetch | staticPropertyFetch | classConstFetch
  | arrayAccessExpr | newExpr | issetExpr | emptyExpr | closureExpr | arrowFnExpr | matchExpr
  | matchArm | yieldExpr | shellExpr | arrayExpr | arrayElement | argList | literal | variableExpr
  | declaredName | nameRef
  -- text the grammar could not place
  | errorNode
  deriving DecidableEq, Inhabited, Repr

namespace Kind

/-- The kind as it is written in dumps and reports. -/
def label : Kind → String
  | whitespace => "WHITESPACE"
  | comment => "COMMENT"
  | inlineHtml => "INLINE_HTML"
  | openTag => "OPEN_TAG"
  | closeTag => "CLOSE_TAG"
  | varName => "VAR_NAME"
  | ident => "IDENT"
  | string => "STRING"
  | intNumber => "INT_NUMBER"
  | floatNumber => "FLOAT_NUMBER"
  | heredoc => "HEREDOC"
  | shellCommand => "SHELL_COMMAND"
  | lParen => "L_PAREN"
  | rParen => "R_PAREN"
  | lBrack => "L_BRACK"
  | rBrack => "R_BRACK"
  | lCurly => "L_CURLY"
  | rCurly => "R_CURLY"
  | semicolon => "SEMICOLON"
  | comma => "COMMA"
  | arrow => "ARROW"
  | nullsafeArrow => "NULLSAFE_ARROW"
  | colon2 => "COLON2"
  | fatArrow => "FAT_ARROW"
  | question => "QUESTION"
  | colon => "COLON"
  | ellipsis => "ELLIPSIS"
  | atSign => "AT"
  | dollar => "DOLLAR"
  | backslash => "BACKSLASH"
  | eq => "EQ"
  | plusEq => "PLUS_EQ"
  | minusEq => "MINUS_EQ"
  | starEq => "STAR_EQ"
  | slashEq => "SLASH_EQ"
  | dotEq => "DOT_EQ"
  | percentEq => "PERCENT_EQ"
  | question2Eq => "QUESTION2_EQ"
  | star2Eq => "STAR2_EQ"
  | shlEq => "SHL_EQ"
  | shrEq => "SHR_EQ"
  | ampEq => "AMP_EQ"
  | pipeEq => "PIPE_EQ"
  | caretEq => "CARET_EQ"
  | amp2 => "AMP2"
  | pipe2 => "PIPE2"
  | bang => "BANG"
  | eq2 => "EQ2"
  | eq3 => "EQ3"
  | neq => "NEQ"
  | neq2 => "NEQ2"
  | lt => "LT"
  | gt => "GT"
  | lteq => "LTEQ"
  | gteq => "GTEQ"
  | plus => "PLUS"
  | minus => "MINUS"
  | star => "STAR"
  | slash => "SLASH"
  | percent => "PERCENT"
  | dot => "DOT"
  | amp => "AMP"
  | pipe => "PIPE"
  | caret => "CARET"
  | tilde => "TILDE"
  | star2 => "STAR2"
  | shl => "SHL"
  | shr => "SHR"
  | spaceship => "SPACESHIP"
  | question2 => "QUESTION2"
  | plus2 => "PLUS2"
  | minus2 => "MINUS2"
  | abstractKw => "ABSTRACT_KW"
  | andKw => "AND_KW"
  | arrayKw => "ARRAY_KW"
  | asKw => "AS_KW"
  | breakKw => "BREAK_KW"
  | caseKw => "CASE_KW"
  | catchKw => "CATCH_KW"
  | classKw => "CLASS_KW"
  | cloneKw => "CLONE_KW"
  | constKw => "CONST_KW"
  | continueKw => "CONTINUE_KW"
  | declareKw => "DECLARE_KW"
  | defaultKw => "DEFAULT_KW"
  | doKw => "DO_KW"
  | echoKw => "ECHO_KW"
  | elseKw => "ELSE_KW"
  | elseifKw => "ELSEIF_KW"
  | emptyKw => "EMPTY_KW"
  | endforKw => "ENDFOR_KW"
  | endforeachKw => "ENDFOREACH_KW"
  | endifKw => "ENDIF_KW"
  | endswitchKw => "ENDSWITCH_KW"
  | endwhileKw => "ENDWHILE_KW"
  | enumKw => "ENUM_KW"
  | exitKw => "EXIT_KW"
  | extendsKw => "EXTENDS_KW"
  | falseKw => "FALSE_KW"
  | finalKw => "FINAL_KW"
  | finallyKw => "FINALLY_KW"
  | fnKw => "FN_KW"
  | forKw => "FOR_KW"
  | foreachKw => "FOREACH_KW"
  | functionKw => "FUNCTION_KW"
  | globalKw => "GLOBAL_KW"
  | gotoKw => "GOTO_KW"
  | ifKw => "IF_KW"
  | implementsKw => "IMPLEMENTS_KW"
  | includeKw => "INCLUDE_KW"
  | instanceofKw => "INSTANCEOF_KW"
  | insteadofKw => "INSTEADOF_KW"
  | interfaceKw => "INTERFACE_KW"
  | issetKw => "ISSET_KW"
  | listKw => "LIST_KW"
  | matchKw => "MATCH_KW"
  | namespaceKw => "NAMESPACE_KW"
  | newKw => "NEW_KW"
  | nullKw => "NULL_KW"
  | orKw => "OR_KW"
  | printKw => "PRINT_KW"
  | privateKw => "PRIVATE_KW"
  | protectedKw => "PROTECTED_KW"
  | publicKw => "PUBLIC_KW"
  | returnKw => "RETURN_KW"
  | staticKw => "STATIC_KW"
  | switchKw => "SWITCH_KW"
  | throwKw => "THROW_KW"
  | traitKw => "TRAIT_KW"
  | trueKw => "TRUE_KW"
  | tryKw => "TRY_KW"
  | unsetKw => "UNSET_KW"
  | useKw => "USE_KW"
  | whileKw => "WHILE_KW"
  | xorKw => "XOR_KW"
  | yieldKw => "YIELD_KW"
  | errorToken => "ERROR_TOKEN"
  | sourceFile => "SOURCE_FILE"
  | block => "BLOCK"
  | exprStmt => "EXPR_STMT"
  | emptyStmt => "EMPTY_STMT"
  | echoStmt => "ECHO_STMT"
  | ifStmt => "IF_STMT"
  | elseIfClause => "ELSE_IF_CLAUSE"
  | elseClause => "ELSE_CLAUSE"
  | forStmt => "FOR_STMT"
  | foreachStmt => "FOREACH_STMT"
  | whileStmt => "WHILE_STMT"
  | doWhileStmt => "DO_WHILE_STMT"
  | returnStmt => "RETURN_STMT"
  | breakStmt => "BREAK_STMT"
  | tryStmt => "TRY_STMT"
  | catchClause => "CATCH_CLAUSE"
  | finallyClause => "FINALLY_CLAUSE"
  | switchStmt => "SWITCH_STMT"
  | caseClause => "CASE_CLAUSE"
  | globalStmt => "GLOBAL_STMT"
  | continueStmt => "CONTINUE_STMT"
  | unsetStmt => "UNSET_STMT"
  | declareStmt => "DECLARE_STMT"
  | labelStmt => "LABEL_STMT"
  | gotoStmt => "GOTO_STMT"
  | functionDecl => "FUNCTION_DECL"
  | methodDecl => "METHOD_DECL"
  | classDecl => "CLASS_DECL"
  | interfaceDecl => "INTERFACE_DECL"
  | traitDecl => "TRAIT_DECL"
  | enumDecl => "ENUM_DECL"
  | enumCase => "ENUM_CASE"
  | propertyDecl => "PROPERTY_DECL"
  | constDecl => "CONST_DECL"
  | namespaceDecl => "NAMESPACE_DECL"
  | useDecl => "USE_DECL"
  | useItem => "USE_ITEM"
  | extendsList => "EXTENDS_LIST"
  | implementsList => "IMPLEMENTS_LIST"
  | paramList => "PARAM_LIST"
  | param => "PARAM"
  | closureUse => "CLOSURE_USE"
  | typeRef => "TYPE_REF"
  | assignExpr => "ASSIGN_EXPR"
  | binaryExpr => "BINARY_EXPR"
  | unaryExpr => "UNARY_EXPR"
  | postfixExpr => "POSTFIX_EXPR"
  | castExpr => "CAST_EXPR"
  | ternaryExpr => "TERNARY_EXPR"
  | parenExpr => "PAREN_EXPR"
  | callExpr => "CALL_EXPR"
  | methodCallExpr => "METHOD_CALL_EXPR"
  | staticCallExpr => "STATIC_CALL_EXPR"
  | propertyFetch => "PROPERTY_FETCH"
  | staticPropertyFetch => "STATIC_PROPERTY_FETCH"
  | classConstFetch => "CLASS_CONST_FETCH"
  | arrayAccessExpr => "ARRAY_ACCESS_EXPR"
  | newExpr => "NEW_EXPR"
  | issetExpr => "ISSET_EXPR"
  | emptyExpr => "EMPTY_EXPR"
  | closureExpr => "CLOSURE_EXPR"
  | arrowFnExpr => "ARROW_FN_EXPR"
  | matchExpr => "MATCH_EXPR"
  | matchArm => "MATCH_ARM"
  | yieldExpr => "YIELD_EXPR"
  | shellExpr => "SHELL_EXPR"
  | arrayExpr => "ARRAY_EXPR"
  | arrayElement => "ARRAY_ELEMENT"
  | argList => "ARG_LIST"
  | literal => "LITERAL"
  | variableExpr => "VARIABLE"
  | declaredName => "NAME"
  | nameRef => "NAME_REF"
  | errorNode => "ERROR"

/-- Every kind, in the order of the enumeration. -/
def all : List Kind := [
  whitespace, comment, inlineHtml, openTag, closeTag, varName, ident, string, intNumber,
  floatNumber, heredoc, shellCommand, lParen, rParen, lBrack, rBrack, lCurly, rCurly, semicolon,
  comma, arrow, nullsafeArrow, colon2, fatArrow, question, colon, ellipsis, atSign, dollar,
  backslash, eq, plusEq, minusEq, starEq, slashEq, dotEq, percentEq, question2Eq, star2Eq, shlEq,
  shrEq, ampEq, pipeEq, caretEq, amp2, pipe2, bang, eq2, eq3, neq, neq2, lt, gt, lteq, gteq, plus,
  minus, star, slash, percent, dot, amp, pipe, caret, tilde, star2, shl, shr, spaceship,
  question2, plus2, minus2, abstractKw, andKw, arrayKw, asKw, breakKw, caseKw, catchKw, classKw,
  cloneKw, constKw, continueKw, declareKw, defaultKw, doKw, echoKw, elseKw, elseifKw, emptyKw,
  endforKw, endforeachKw, endifKw, endswitchKw, endwhileKw, enumKw, exitKw, extendsKw, falseKw,
  finalKw, finallyKw, fnKw, forKw, foreachKw, functionKw, globalKw, gotoKw, ifKw, implementsKw,
  includeKw, instanceofKw, insteadofKw, interfaceKw, issetKw, listKw, matchKw, namespaceKw, newKw,
  nullKw, orKw, printKw, privateKw, protectedKw, publicKw, returnKw, staticKw, switchKw, throwKw,
  traitKw, trueKw, tryKw, unsetKw, useKw, whileKw, xorKw, yieldKw, errorToken, sourceFile, block,
  exprStmt, emptyStmt, echoStmt, ifStmt, elseIfClause, elseClause, forStmt, foreachStmt,
  whileStmt, doWhileStmt, returnStmt, breakStmt, tryStmt, catchClause, finallyClause, switchStmt,
  caseClause, globalStmt, continueStmt, unsetStmt, declareStmt, labelStmt, gotoStmt, functionDecl,
  methodDecl, classDecl, interfaceDecl, traitDecl, enumDecl, enumCase, propertyDecl, constDecl,
  namespaceDecl, useDecl, useItem, extendsList, implementsList, paramList, param, closureUse,
  typeRef, assignExpr, binaryExpr, unaryExpr, postfixExpr, castExpr, ternaryExpr, parenExpr,
  callExpr, methodCallExpr, staticCallExpr, propertyFetch, staticPropertyFetch, classConstFetch,
  arrayAccessExpr, newExpr, issetExpr, emptyExpr, closureExpr, arrowFnExpr, matchExpr, matchArm,
  yieldExpr, shellExpr, arrayExpr, arrayElement, argList, literal, variableExpr, declaredName,
  nameRef, errorNode]

/-- Position of the kind in the enumeration. -/
abbrev index (k : Kind) : Nat := k.ctorIdx

theorem all_getElem?_index (k : Kind) : all[k.index]? = some k := by cases k <;> rfl

theorem mem_all (k : Kind) : k ∈ all := List.mem_of_getElem? (all_getElem?_index k)

def ofLabel? (s : String) : Option Kind := all.find? (·.label == s)

/-! Classes of kinds. -/

def isToken (k : Kind) : Bool := k.index < sourceFile.index

def isTrivia : Kind → Bool
  | whitespace | comment => true
  | _ => false

def isKeyword (k : Kind) : Bool := abstractKw.index ≤ k.index && k.index ≤ yieldKw.index

/-- Kinds that are spelled in one way only, up to `<>` for `!=`: their text carries nothing more. -/
def isOperatorOrPunctuation (k : Kind) : Bool := lParen.index ≤ k.index && k.index ≤ minus2.index

def isAssignmentOp : Kind → Bool
  | eq | plusEq | minusEq | starEq | slashEq | dotEq | percentEq | question2Eq | star2Eq | shlEq
  | shrEq | ampEq | pipeEq | caretEq => true
  | _ => false

/-- The operators `&&`, `||`, `and` and `or`. -/
def isLogicalOp : Kind → Bool
  | amp2 | pipe2 | andKw | orKw => true
  | _ => false

def isEqualityOp : Kind → Bool
  | eq2 | eq3 | neq | neq2 => true
  | _ => false

def isLoop : Kind → Bool
  | forStmt | foreachStmt | whileStmt | doWhileStmt => true
  | _ => false

def isFunctionLike : Kind → Bool
  | functionDecl | methodDecl | closureExpr | arrowFnExpr => true
  | _ => false

def isClassLike : Kind → Bool
  | classDecl | interfaceDecl | traitDecl | enumDecl => true
  | _ => false

def isCall : Kind → Bool
  | callExpr | methodCallExpr | staticCallExpr => true
  | _ => false

def isStatement : Kind → Bool
  | block | exprStmt | emptyStmt | echoStmt | ifStmt | forStmt | foreachStmt | whileStmt
  | doWhileStmt | returnStmt | breakStmt | tryStmt | switchStmt | globalStmt | continueStmt
  | functionDecl | classDecl | interfaceDecl | traitDecl | enumDecl | constDecl | namespaceDecl
  | useDecl | unsetStmt | declareStmt | labelStmt | gotoStmt => true
  | _ => false

/-- Reserved words in lower case. -/
def keywords : List (String × Kind) := [
  ("abstract", abstractKw), ("and", andKw), ("array", arrayKw), ("as", asKw), ("break", breakKw),
  ("case", caseKw), ("catch", catchKw), ("class", classKw), ("clone", cloneKw),
  ("const", constKw), ("continue", continueKw), ("declare", declareKw), ("default", defaultKw),
  ("do", doKw), ("echo", echoKw), ("else", elseKw), ("elseif", elseifKw), ("empty", emptyKw),
  ("endfor", endforKw), ("endforeach", endforeachKw), ("endif", endifKw),
  ("endswitch", endswitchKw), ("endwhile", endwhileKw), ("enum", enumKw), ("exit", exitKw),
  ("die", exitKw), ("extends", extendsKw), ("false", falseKw), ("final", finalKw),
  ("finally", finallyKw), ("fn", fnKw), ("for", forKw), ("foreach", foreachKw),
  ("function", functionKw), ("global", globalKw), ("goto", gotoKw), ("if", ifKw),
  ("implements", implementsKw), ("include", includeKw), ("include_once", includeKw),
  ("require", includeKw), ("require_once", includeKw), ("instanceof", instanceofKw),
  ("insteadof", insteadofKw), ("interface", interfaceKw), ("isset", issetKw), ("list", listKw),
  ("match", matchKw), ("namespace", namespaceKw), ("new", newKw), ("null", nullKw), ("or", orKw),
  ("print", printKw), ("private", privateKw), ("protected", protectedKw), ("public", publicKw),
  ("return", returnKw), ("static", staticKw), ("switch", switchKw), ("throw", throwKw),
  ("trait", traitKw), ("true", trueKw), ("try", tryKw), ("unset", unsetKw), ("use", useKw),
  ("while", whileKw), ("xor", xorKw), ("yield", yieldKw)]

/-- Reserved words are matched without regard to ASCII case. -/
def ofKeyword? (word : String) : Option Kind := keywords.lookup word.toLower

end Kind

end PhpLint
