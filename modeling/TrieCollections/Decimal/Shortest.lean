/-
  TrieCollections/Decimal/Shortest.lean
  =====================================
  **The fewest digits that read back.**  A decimal is read as the double nearest to
  it, so around every double there is an interval of numbers that are read as this
  double.  Its ends belong to it when the significand is even, because that is where
  ties go.  The text of a double is the decimal in that interval with the fewest
  digits, and of these the one nearest to the double.  Where two are equally near, the
  layout that the text is written in says which one is taken.

  The search is over the grids of decimals with 1, 2, … 17 digits.  If a grid has a
  point in the interval then one of the two points next to the double is in it, so
  only these two are tried, in exact arithmetic on natural numbers.
-/
import TrieCollections.Decimal.Binary64

namespace TrieCollections

/-- A positive decimal number: `digits * 10^exponent`. -/
structure Decimal where
  digits : Nat
  exponent : Int
deriving DecidableEq

namespace Decimal

/-- The same number without trailing zeros among its digits. -/
def trim (fuel : Nat) (d : Decimal) : Decimal :=
  match fuel with
  | 0 => d
  | fuel + 1 =>
    if d.digits ≠ 0 ∧ d.digits % 10 = 0 then trim fuel ⟨d.digits / 10, d.exponent + 1⟩ else d

/-- Which of two equally near neighbours on a grid is taken. -/
inductive Tie where
  | upper
  /-- The one that is an even multiple of the grid. -/
  | even
deriving DecidableEq

/-- A positive rational number and the interval around it, over one denominator. -/
structure Target where
  value : Nat
  low : Nat
  high : Nat
  denominator : Nat
  /-- The ends of the interval belong to it. -/
  closed : Bool

namespace Target

/-- The interval of numbers that are read as the given double.  Values are counted in
    quarters of a unit of the last place: the upper end is half a unit away, the
    lower one too, or a quarter where the doubles below are twice as dense. -/
def ofBits (bits : UInt64) : Target :=
  let m := Binary64.significand bits
  let unit := 1 <<< Binary64.scale bits
  let lowGap := if Binary64.fractionBits bits = 0 ∧ 1 < Binary64.exponentBits bits then 1 else 2
  ⟨4 * m * unit, (4 * m - lowGap) * unit, (4 * m + 2) * unit, 1 <<< 1076, m % 2 == 0⟩

/-- `n * 10^e` over the denominator of the target, as a fraction: numerator and the
    factor that the target's numerators are multiplied by. -/
def scaled (t : Target) (n : Nat) (e : Int) : Nat × Nat :=
  (n * t.denominator * Nat.pow 10 e.toNat, Nat.pow 10 (-e).toNat)

/-- `n * 10^e` lies in the interval. -/
def holds (t : Target) (n : Nat) (e : Int) : Bool :=
  let (x, factor) := t.scaled n e
  if t.closed then decide (t.low * factor ≤ x) && decide (x ≤ t.high * factor)
  else decide (t.low * factor < x) && decide (x < t.high * factor)

/-- The largest `n` with `n * 10^e` not above the value. -/
def floorAt (t : Target) (e : Int) : Nat :=
  t.value * Nat.pow 10 (-e).toNat / (t.denominator * Nat.pow 10 e.toNat)

/-- Of `n * 10^e` and `(n + 1) * 10^e`, between which the value lies, the second one is
    to be taken: it is the nearer one, or it is as near and the tie goes to it. -/
def prefersUpper (t : Target) (tie : Tie) (n : Nat) (e : Int) : Bool :=
  let (x, factor) := t.scaled (2 * n + 1) e
  match compare x (2 * t.value * factor), tie with
  | .lt, _ => true
  | .eq, .upper => true
  | .eq, .even => n % 2 == 1
  | .gt, _ => false

/-- The nearest point in the interval among the two that the grid of multiples of
    10^e has next to the value. -/
def onGrid? (t : Target) (tie : Tie) (e : Int) : Option Nat :=
  let n := t.floorAt e
  match t.holds n e, t.holds (n + 1) e with
  | true, true => some (if t.prefersUpper tie n e then n + 1 else n)
  | true, false => some n
  | false, true => some (n + 1)
  | false, false => none

/-- The least `e`, from `e` upwards, with the value below 10^e. -/
def magnitudeFrom (t : Target) (fuel : Nat) (e : Int) : Int :=
  match fuel with
  | 0 => e
  | fuel + 1 => if t.floorAt e = 0 then e else magnitudeFrom t fuel (e + 1)

/-- The first grid, from `count` digits on, that has a point in the interval. -/
def search (t : Target) (tie : Tie) (top : Int) (fuel count : Nat) : Decimal :=
  let e := top - count
  match t.onGrid? tie e, fuel with
  | some n, _ => ⟨n, e⟩
  | none, 0 => ⟨t.floorAt e, e⟩
  | none, fuel + 1 => search t tie top fuel (count + 1)

end Target

/-- The shortest decimal that is read as the given finite double, for a magnitude
    above zero. -/
def shortest (tie : Tie) (bits : UInt64) : Decimal :=
  let t := Target.ofBits bits
  (t.search tie (t.magnitudeFrom 640 (-325)) 16 1).trim 400

/-! ### Layout -/

structure Layout where
  /-- The least and the greatest number of places in front of the point for which the
      digits are written around a point; others get an exponent. -/
  leastPlaces : Int
  greatestPlaces : Int
  /-- A positive exponent has a plus sign. -/
  plusSign : Bool
  tie : Tie

/-- Digits around a point that stands behind `places` of them; there is at least one
    digit on either side. -/
def around (digits : List Char) (places : Int) : List Char :=
  if places ≤ 0 then ['0', '.'] ++ List.replicate (-places).toNat '0' ++ digits
  else
    let front := places.toNat
    if digits.length ≤ front then
      digits ++ List.replicate (front - digits.length) '0' ++ ['.', '0']
    else digits.take front ++ ['.'] ++ digits.drop front

/-- One digit, a point if others follow, and the exponent. -/
def withExponent (plusSign : Bool) (digits : List Char) (places : Int) : List Char :=
  digits.take 1 ++ (if digits.length ≤ 1 then [] else ['.'] ++ digits.drop 1)
    ++ ['e'] ++ (if plusSign && decide (1 ≤ places) then ['+'] else [])
    ++ (toString (places - 1)).toList

def render (layout : Layout) (d : Decimal) : List Char :=
  let digits := Nat.toDigits 10 d.digits
  let places := d.exponent + digits.length
  if layout.leastPlaces ≤ places ∧ places ≤ layout.greatestPlaces then around digits places
  else withExponent layout.plusSign digits places

end Decimal

def Binary64.render (layout : Decimal.Layout) (bits : UInt64) : String :=
  if isNaN bits then "NaN"
  else
    let body :=
      if isInfinite bits then "inf".toList
      else if magnitude bits = 0 then "0.0".toList
      else (Decimal.shortest layout.tie bits).render layout
    String.ofList (if isNegative bits then '-' :: body else body)

end TrieCollections
