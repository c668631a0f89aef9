import PhpLint.Text.Blank

/-!
Class names. Classes are compared by a normal form: no surrounding white space, no leading
separator, ASCII letters in lower case.
-/

namespace PhpLint.ClassName

def dropSeparators (name : String) : String := .ofList (name.toList.dropWhile (· == '\\'))

def normalize (name : String) : String := (dropSeparators (Text.trim name)).toLower

/-- The part of a name behind its last separator. -/
def short (name : String) : String :=
  .ofList (name.toList.reverse.takeWhile (· != '\\')).reverse

/-- The part of a name before its first separator, and the part behind it if there is one. -/
def splitHead (name : String) : String × Option String :=
  let head := name.toList.takeWhile (· != '\\')
  match name.toList.dropWhile (· != '\\') with
  | [] => (.ofList head, none)
  | _ :: tail => (.ofList head, some (.ofList tail))

def qualify (scope name : String) : String := if scope.isEmpty then name else scope ++ "\\" ++ name

end PhpLint.ClassName
