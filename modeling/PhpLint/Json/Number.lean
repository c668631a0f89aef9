import PhpLint.Json.Reader
import PhpLint.Literal.Shortest

/-!
The value of a JSON number. Its digits go into one word of 64 bits, those that no longer fit only
hold their place, and the word is then scaled by a power of ten. A number with a point or an
exponent is a fraction, and so is one that a word cannot hold.
-/

namespace PhpLint.Json

open Literal

inductive NumberValue where
  | integer (negative : Bool) (value : Nat)
  /-- A binary64 number by its units. -/
  | fraction (negative : Bool) (units : Nat)
  deriving DecidableEq, Inhabited, Repr

namespace NumberText

def addDigit? (n : Nat) (digit : Char) : Option Nat :=
  let next := 10 * n + (digit.toNat - 48)
  if next < UInt64.size then some next else none

/-- The word that the digits before the point make, and the number of those left out. -/
def wholeWord (n : Nat) : List Char → Nat × Nat
  | [] => (n, 0)
  | c :: cs => match addDigit? n c with
    | some next => wholeWord next cs
    | none => (n, cs.length + 1)

/-- The word with digits from behind the point, and the number of those taken. -/
def fractionWord (n : Nat) : List Char → Nat × Nat
  | [] => (n, 0)
  | c :: cs => match addDigit? n c with
    | some next =>
      let (word, taken) := fractionWord next cs
      (word, taken + 1)
    | none => (n, 0)

/-- The digits as one word, times a power of ten. -/
def scaled (n : NumberText) : Nat × Int :=
  let (word, left) := wholeWord 0 n.whole
  let (word, taken) := fractionWord word n.fraction
  (word, Int.ofNat left - Int.ofNat taken)

def digitsValue (digits : List Char) : Nat :=
  digits.foldl (fun v d => 10 * v + (d.toNat - 48)) 0

def maxExponent : Nat := 2147483647

/-- Number of exponent digits behind the one with which the exponent becomes too large. -/
def digitsBeyond? (value : Nat) : List Char → Option Nat
  | [] => none
  | c :: cs =>
    let next := 10 * value + (c.toNat - 48)
    if maxExponent < next then some cs.length else digitsBeyond? next cs

end NumberText

/-- Largest power of ten that is scaled by at once. -/
def maxPower : Nat := 308

def powerUnits (n : Nat) : Nat := Binary64.nearestUnits (Nat.pow 10 n) 1

/-- Divides by a power of ten. -/
def scaleDown (units power : Nat) : Nat :=
  if units = 0 then 0
  else if power ≤ maxPower then Binary64.nearestUnits units (powerUnits power)
  else scaleDown (Binary64.nearestUnits units (powerUnits maxPower)) (power - maxPower)
termination_by power
decreasing_by simp only [maxPower] at *; omega

/-- Multiplies by a power of ten, unless the result is too large. -/
def scaleUp? (units power : Nat) : Option Nat :=
  if units = 0 then some 0
  else if maxPower < power then none
  else
    let scaled := Binary64.nearestUnits (units * powerUnits power) (Nat.pow 2 2148)
    if Binary64.limit ≤ scaled then none else some scaled

def scale? (word : Nat) (exponent : Int) : Option Nat :=
  let units := Binary64.nearestUnits word 1
  if exponent < 0 then some (scaleDown units exponent.natAbs)
  else scaleUp? units exponent.natAbs

/-- The value of a number without point and exponent, if an integer can hold it. -/
def integerWord? (negative : Bool) (n : NumberText) : Option Nat :=
  match NumberText.wholeWord 0 n.whole with
  | (word, 0) =>
    let fits := if negative then 0 < word && word ≤ UInt64.size / 2 else true
    if n.fraction.isEmpty && n.exponent.isNone && fits then some word else none
  | _ => none

namespace Reader

/-- The units of a number that has just been read as a fraction. -/
def fractionUnits (n : NumberText) : Reader Nat := do
  let (word, place) := n.scaled
  let exponent := n.exponent.getD ⟨false, []⟩
  match NumberText.digitsBeyond? 0 exponent.digits with
  | some back => if word = 0 || exponent.negative then return 0 else failBack back .numberTooLarge
  | none =>
    let power := Int.ofNat (NumberText.digitsValue exponent.digits)
    match scale? word (if exponent.negative then place - power else place + power) with
    | some units => return units
    | none => fail .numberTooLarge

/-- The value of a number, read behind its sign. -/
def numberValue (negative : Bool) : Reader NumberValue := do
  let n ← number false
  match integerWord? negative n with
  | some word => return .integer negative word
  | none => return .fraction negative (← fractionUnits n)

end Reader

end PhpLint.Json
