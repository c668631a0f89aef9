import PhpLint.Literal.Integer

/-!
The value of a floating-point literal: the binary64 number nearest to the decimal that is
written, ties to the even significand. Every finite number of the format is a whole multiple of
`2 ^ -1074`, and that multiple stands for it here.
-/

namespace PhpLint.Literal

inductive Binary64 where
  | nan
  | infinite (negative : Bool)
  /-- The number `units * 2 ^ -1074`, with its sign. -/
  | finite (negative : Bool) (units : Nat)
  deriving DecidableEq, Inhabited, Repr

namespace Binary64

/-- Comparison as numbers: a zero has no sign, and `nan` equals nothing. -/
def same : Binary64 → Binary64 → Bool
  | infinite s, infinite t => s == t
  | finite s m, finite t n => m == n && (s == t || m == 0)
  | _, _ => false

/-- Nearest whole number to `num / den`, a tie going to the even one. -/
def nearestNat (num den : Nat) : Nat :=
  let q := num / den
  let r := num % den
  if 2 * r < den then q else if den < 2 * r then q + 1 else if q % 2 == 0 then q else q + 1

/-- Spacing of the format around `units`: with 53 significant bits, those above are a power. -/
def spacing (units : Nat) : Nat := if units < Nat.pow 2 53 then 1 else Nat.pow 2 (units.log2 - 52)

/-- The units of the number nearest to `num / den`, were the format without an upper end. -/
def nearestUnits (num den : Nat) : Nat :=
  let scaled := num * Nat.pow 2 1074
  let step := spacing (scaled / den)
  nearestNat scaled (den * step) * step

/-- The least number of units that is too large for the format. -/
def limit : Nat := Nat.pow 2 2098

/-- The number nearest to `num / den`. -/
def ofRatio (negative : Bool) (num den : Nat) : Binary64 :=
  let units := nearestUnits num den
  if limit ≤ units then infinite negative else finite negative units

/-- The number nearest to `digits * 10 ^ exponent`. Exponents far outside the format are settled
by the size of the decimal alone. -/
def ofDecimal (negative : Bool) (digits size : Nat) (exponent : Int) : Binary64 :=
  if digits == 0 then finite negative 0
  else if exponent + size > 400 then infinite negative
  else if exponent + size < -400 then finite negative 0
  else if exponent ≥ 0 then ofRatio negative (digits * Nat.pow 10 exponent.toNat) 1
  else ofRatio negative digits (Nat.pow 10 (-exponent).toNat)

/-- Value of an exponent part, which starts with `e`. -/
def exponent? : List Char → Option Int
  | [] => some 0
  | e :: cs =>
    if e != 'e' && e != 'E' then none
    else match cs with
      | '-' :: digits => (digitsValue? 10 digits).map fun n => -n
      | '+' :: digits => (digitsValue? 10 digits).map fun n => n
      | digits => (digitsValue? 10 digits).map fun n => n

/-- A decimal without its sign: digits, a point, digits, an exponent. -/
def unsigned? (negative : Bool) (cs : List Char) : Option Binary64 :=
  let whole := cs.takeWhile Char.isDigit
  let after := cs.dropWhile Char.isDigit
  let pointed := match after with
    | '.' :: rest => rest
    | _ => []
  let hasPoint := after.head? == some '.'
  let fraction := pointed.takeWhile Char.isDigit
  let tail := if hasPoint then pointed.dropWhile Char.isDigit else after
  match digitsValue? 10 (whole ++ fraction), exponent? tail with
  | some digits, some e =>
    let significant := ((whole ++ fraction).dropWhile (· == '0')).length
    some (ofDecimal negative digits significant (e - fraction.length))
  | _, _ => none

def special? (negative : Bool) (cs : List Char) : Option Binary64 :=
  match String.ofList (cs.map Char.toLower) with
  | "inf" | "infinity" => some (infinite negative)
  | "nan" => some nan
  | _ => none

def ofText? (text : String) : Option Binary64 :=
  match text.toList with
  | '-' :: cs => (special? true cs).or (unsigned? true cs)
  | '+' :: cs => (special? false cs).or (unsigned? false cs)
  | cs => (special? false cs).or (unsigned? false cs)

end Binary64

/-- The value of a literal, digit separators left out. -/
def floatValue? (text : String) : Option Binary64 :=
  Binary64.ofText? (.ofList (text.toList.filter (· != '_')))

end PhpLint.Literal
