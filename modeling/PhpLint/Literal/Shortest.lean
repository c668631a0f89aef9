import PhpLint.Literal.Binary64

/-!
The shortest decimal of a binary64 number: the fewest digits that read back as the number, and of
those the nearest to it. A positive number is given by its units, as in `Binary64`. All places are
counted from `10 ^ -400`, so that every decimal is a whole number.
-/

namespace PhpLint.Literal.Binary64

/-- A positive decimal. Its first digit counts `10 ^ exponent`, its last one is no zero. -/
structure Shortest where
  digits : List Char
  exponent : Int
  deriving DecidableEq, Inhabited, Repr

/-- The place of the point. Every positive number has more than seventeen places before it. -/
def pointPlace : Nat := 400

/-- The distance to the number below, which is half as wide under a power of two. -/
def spacingBelow (units : Nat) : Nat :=
  let step := spacing units
  if step > 1 ∧ units = Nat.pow 2 units.log2 then step / 2 else step

/-- Whether `n` in a place is nearer to the number than to both its neighbours. A decimal halfway
between two numbers belongs to the one with the even significand. -/
def readsBack (units n place : Nat) : Bool :=
  let decimal := 2 * n * Nat.pow 10 place * Nat.pow 2 1074
  let low := (2 * units - spacingBelow units) * Nat.pow 10 pointPlace
  let high := (2 * units + spacing units) * Nat.pow 10 pointPlace
  if units / spacing units % 2 = 0 then low ≤ decimal && decimal ≤ high
  else low < decimal && decimal < high

/-- The decimal that ends in a place and reads back, if there is one. Of two the nearer is taken,
and the even one when neither is nearer. -/
def endingAt? (units place : Nat) : Option Nat :=
  let num := units * Nat.pow 10 pointPlace
  let den := Nat.pow 10 place * Nat.pow 2 1074
  let below := num / den
  match readsBack units below place, readsBack units (below + 1) place with
  | true, true => some (nearestNat num den)
  | true, false => some below
  | false, true => some (below + 1)
  | false, false => none

/-- The place just before the first digit. -/
def leadingPlace (units : Nat) : Nat :=
  (Nat.toDigits 10 (units * Nat.pow 10 pointPlace / Nat.pow 2 1074)).length

def trimZeros (digits : List Char) : List Char := (digits.reverse.dropWhile (· == '0')).reverse

/-- The decimal `n * 10 ^ (place - point)`. -/
def Shortest.ofNat (n place point : Nat) : Shortest :=
  let digits := Nat.toDigits 10 n
  ⟨trimZeros digits, Int.ofNat (place + digits.length) - 1 - Int.ofNat point⟩

/-- The number itself, all its digits. -/
def exactly (units : Nat) : Shortest := .ofNat (units * Nat.pow 5 1074) 0 1074

/-- Tries one digit, two, and so on up to seventeen, which are enough. -/
def shortest (units : Nat) : Shortest :=
  let lead := leadingPlace units
  ((List.range 17).findSome? fun n =>
    let place := lead - (n + 1)
    (endingAt? units place).map fun found => Shortest.ofNat found place pointPlace).getD
    (exactly units)

def zeros (n : Nat) : List Char := List.replicate n '0'

namespace Shortest

/-- Five zeros behind the point, and sixteen digits before it, are still written out. -/
def isPlain (s : Shortest) : Bool := -5 ≤ s.exponent && s.exponent ≤ 15

def plain (s : Shortest) : List Char :=
  if s.exponent < 0 then ['0', '.'] ++ zeros (s.exponent.natAbs - 1) ++ s.digits
  else
    let whole := s.exponent.natAbs + 1
    if s.digits.length ≤ whole then s.digits ++ zeros (whole - s.digits.length) ++ ['.', '0']
    else s.digits.take whole ++ '.' :: s.digits.drop whole

def scientific (s : Shortest) : List Char :=
  let mantissa := match s.digits with
    | first :: second :: rest => first :: '.' :: second :: rest
    | digits => digits
  mantissa ++ 'e' :: (if s.exponent < 0 then '-' else '+') :: Nat.toDigits 10 s.exponent.natAbs

def text (s : Shortest) : List Char := if s.isPlain then s.plain else s.scientific

end Shortest

/-- The written form of a finite number, which always has a point or an exponent. -/
def decimalText (negative : Bool) (units : Nat) : String :=
  let digits := if units = 0 then ['0', '.', '0'] else (shortest units).text
  .ofList (if negative then '-' :: digits else digits)

end PhpLint.Literal.Binary64
