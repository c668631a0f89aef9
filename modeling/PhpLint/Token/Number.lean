import PhpLint.Token.Basic

/-!
Number tokens. A digit run may hold `_` anywhere; after `0x`, `0b` and `0o` every hexadecimal
digit belongs to the token, and whether it suits the base is left to the token's value.
-/

namespace PhpLint.Token

def isDigitPart (c : Char) : Bool := c.isDigit || c == '_'

def isHexPart (c : Char) : Bool :=
  c.isDigit || ('a' ≤ c && c ≤ 'f') || ('A' ≤ c && c ≤ 'F') || c == '_'

def digitsLength (cs : List Char) : Nat := (cs.takeWhile isDigitPart).length

def isBasePrefix : List Char → Bool
  | '0' :: b :: _ :: _ => ['x', 'X', 'b', 'B', 'o', 'O'].contains b
  | _ => false

/-- Length of a fraction: a point and a digit, then the rest of the digit run. -/
def fractionLength : List Char → Nat
  | '.' :: d :: cs => if d.isDigit then 1 + digitsLength (d :: cs) else 0
  | _ => 0

/-- Length of an exponent, none where no digit run follows the sign. -/
def exponentLength : List Char → Nat
  | e :: cs =>
    if e == 'e' || e == 'E' then
      let sign := if cs.head?.any fun c => c == '+' || c == '-' then 1 else 0
      let digits := digitsLength (cs.drop sign)
      if digits == 0 then 0 else 1 + sign + digits
    else 0
  | [] => 0

/-- Kind and length of the number at the start of the text. -/
def number (cs : List Char) : Kind × Nat :=
  if isBasePrefix cs then (.intNumber, 2 + ((cs.drop 2).takeWhile isHexPart).length)
  else
    let whole := digitsLength cs
    let fraction := fractionLength (cs.drop whole)
    let exponent := exponentLength (cs.drop (whole + fraction))
    (if fraction + exponent == 0 then .intNumber else .floatNumber, whole + fraction + exponent)

end PhpLint.Token
