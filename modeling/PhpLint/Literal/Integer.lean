/-!
The value of an integer literal. `0x`, `0b`, `0o` and a leading zero choose the base, `_` between
digits counts for nothing, and values must fit a signed word of 128 bits.
-/

namespace PhpLint.Literal

def digitValue (c : Char) : Nat :=
  if c.isDigit then c.toNat - '0'.toNat
  else if 'a' ≤ c && c ≤ 'z' then c.toNat - 'a'.toNat + 10
  else if 'A' ≤ c && c ≤ 'Z' then c.toNat - 'A'.toNat + 10
  else 36

/-- Positional value of a run of digits that are all below the base. -/
def digitsValue? (base : Nat) (digits : List Char) : Option Nat :=
  if digits.isEmpty then none
  else digits.foldl (fun value c => value.bind fun n =>
    if digitValue c < base then some (n * base + digitValue c) else none) (some 0)

/-- The value if it is a signed number of 128 bits. -/
def inRange (n : Int) : Option Int :=
  let bound := Int.ofNat (Nat.pow 2 127)
  if -bound ≤ n ∧ n < bound then some n else none

/-- Digits that one sign may precede. -/
def signedValue? (base : Nat) : List Char → Option Int
  | '-' :: digits => (digitsValue? base digits).bind fun n => inRange (-n)
  | '+' :: digits => (digitsValue? base digits).bind fun n => inRange n
  | digits => (digitsValue? base digits).bind fun n => inRange n

def integerValue? (text : String) : Option Int :=
  match (text.toList.filter (· != '_')).map Char.toLower with
  | '0' :: 'x' :: digits => signedValue? 16 digits
  | '0' :: 'b' :: digits => signedValue? 2 digits
  | '0' :: 'o' :: digits => signedValue? 8 digits
  | '0' :: d :: digits => signedValue? 8 (d :: digits)
  | digits => signedValue? 10 digits

end PhpLint.Literal
