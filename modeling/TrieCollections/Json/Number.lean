/-
  TrieCollections/Json/Number.lean
  ================================
  **Numbers of JSON data.**  A number without fraction and exponent is an integer if it
  fits into 64 bits, with or without sign.  Any other number is a double, and so is a
  zero with a minus sign.

  A double is read with the means of the processor.  The digits are taken into a word of
  64 bits as long as they fit.  Of the digits after them those in front of the point
  count as zeros, and those behind it are left out.  The word becomes the nearest double,
  and one product or quotient with a power of ten brings it to its magnitude:

      1e-39   is the double 1 divided by the double nearest to 10^39.

  Every step rounds, so the result is near the number written and need not be the
  nearest double.  What would be infinite is no number.
-/
import TrieCollections.Json.Basic

namespace TrieCollections

namespace Json

/-! ### Digits -/

def decimalValue (cs : List Char) : Nat := cs.foldl (fun n c => 10 * n + (c.toNat - '0'.toNat)) 0

/-- Append digits to a number as long as it stays below 2^64; what is left follows. -/
def gather (n : Nat) : List Char → Nat × List Char
  | [] => (n, [])
  | c :: cs =>
    let next := 10 * n + (c.toNat - '0'.toNat)
    if next < UInt64.size then gather next cs else (n, c :: cs)

/-- The digits of a fraction, of which there is none without a point, and what follows. -/
def fraction? : List Char → Option (List Char × List Char)
  | '.' :: cs =>
    let digits := cs.takeWhile Char.isDigit
    if digits.isEmpty then none else some (digits, cs.dropWhile Char.isDigit)
  | cs => some ([], cs)

def signedValue? : List Char → Option Int
  | '-' :: cs =>
    if cs.isEmpty || !cs.all Char.isDigit then none else some (-(decimalValue cs : Int))
  | '+' :: cs => if cs.isEmpty || !cs.all Char.isDigit then none else some (decimalValue cs)
  | cs => if cs.isEmpty || !cs.all Char.isDigit then none else some (decimalValue cs)

/-- The exponent that ends a number, which is zero if none is written. -/
def exponent? : List Char → Option Int
  | [] => some 0
  | 'e' :: cs => signedValue? cs
  | 'E' :: cs => signedValue? cs
  | _ => none

/-! ### Doubles -/

/-- The greatest power of ten below infinity has this exponent. -/
def greatestPower : Nat := 308

def powerOfTen (k : Nat) : Float := Float.ofScientific 1 false k

/-- Multiply by a power of ten, unless that leads to infinity. -/
def enlarged? (x : Float) (k : Nat) : Option Float :=
  if k ≤ greatestPower then
    let y := x * powerOfTen k
    if y.isInf then none else some y
  else if x == 0 then some x
  else none

/-- Divide by a power of ten, in steps if there is no double for it. -/
def reduced (x : Float) (k : Nat) : Float :=
  if k ≤ greatestPower then x / powerOfTen k
  else if x == 0 then x
  else reduced (x / powerOfTen greatestPower) (k - greatestPower)
termination_by k
decreasing_by simp only [greatestPower] at *; omega

/-- The double for a word, a power of ten and a sign. -/
def float? (negative : Bool) (word : UInt64) (exponent : Int) : Option Json :=
  let x := if 0 ≤ exponent then enlarged? word.toFloat exponent.toNat
    else some (reduced word.toFloat exponent.natAbs)
  x.map fun x => float (if negative then (-x).toBits else x.toBits)

/-! ### Numbers -/

/-- A number below 2^64 is an integer with this sign. -/
def isInteger (negative : Bool) (n : Nat) : Bool :=
  !negative || (decide (0 < n) && decide (n ≤ 0x8000000000000000))

/-- The number that a run of characters stands for. -/
def numberOf? (cs : List Char) : Option Json :=
  let negative := cs.head? == some '-'
  let body := if negative then cs.drop 1 else cs
  let whole := body.takeWhile Char.isDigit
  let rest := body.dropWhile Char.isDigit
  if whole.isEmpty || (whole.head? == some '0' && decide (1 < whole.length)) then none
  else
    let (n, uncounted) := gather 0 whole
    if rest.isEmpty && uncounted.isEmpty && isInteger negative n then
      some (int (if negative then -(n : Int) else n))
    else do
      let (fraction, rest) ← fraction? rest
      let (n, unread) := gather n fraction
      let exponent ← exponent? rest
      float? negative (UInt64.ofNat n)
        (uncounted.length - (fraction.length - unread.length : Nat) + exponent)

def isNumberChar (c : Char) : Bool :=
  c.isDigit || c == '+' || c == '-' || c == '.' || c == 'e' || c == 'E'

end Json

end TrieCollections
