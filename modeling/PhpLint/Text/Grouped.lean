/-!
Numbers for reading: decimal digits in groups of three, separated by commas.
-/

namespace PhpLint.Text

/-- Puts a comma before every digit that starts a group of three, the first digit excepted. -/
def groupDigits : List Char → List Char
  | [] => []
  | c :: cs => if cs.length % 3 == 0 && !cs.isEmpty then c :: ',' :: groupDigits cs
    else c :: groupDigits cs

def grouped (n : Nat) : String := .ofList (groupDigits (Nat.toDigits 10 n))

end PhpLint.Text
