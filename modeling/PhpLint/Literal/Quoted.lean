/-!
The value of a quoted string. Single quotes undo `\'` and `\\` only; double quotes know the
common escapes besides. A backslash before anything else stands for itself.
-/

namespace PhpLint.Literal

def unescape? (quote escaped : Char) : Option Char :=
  if escaped == '\\' then some '\\'
  else if quote == '\x27' then if escaped == '\x27' then some '\x27' else none
  else if quote == '\x22' then
    match escaped with
    | '\x22' => some '\x22'
    | 'n' => some '\n'
    | 't' => some '\t'
    | 'r' => some '\r'
    | '$' => some '$'
    | '0' => some '\x00'
    | _ => none
  else none

def unescaped (quote : Char) : List Char → List Char
  | [] => []
  | '\\' :: [] => ['\\']
  | '\\' :: c :: cs => match unescape? quote c with
    | some value => value :: unescaped quote cs
    | none => '\\' :: c :: unescaped quote cs
  | c :: cs => c :: unescaped quote cs

/-- What stands between the first and the last byte; nothing where a byte is no character. -/
def between : List Char → List Char
  | [] => []
  | first :: rest =>
    if first.utf8Size == 1 && rest.getLast?.any (·.utf8Size == 1) then rest.dropLast else []

def unquote (text : String) : String :=
  match text.toList with
  | [] => ""
  | quote :: rest => .ofList (unescaped quote (between (quote :: rest)))

end PhpLint.Literal
