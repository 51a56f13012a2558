/-
  TrieCollections/Decimal/Binary64.lean
  =====================================
  **Doubles by their bits.**  A double is a sign, eleven bits of exponent and 52 bits
  of fraction.  A finite one is `± significand * 2^(scale - 1074)` with a significand
  below 2^53, so its magnitude is a quotient of two natural numbers, and doubles are
  compared and printed by computing with those.
-/

namespace TrieCollections.Binary64

def negativeZero : UInt64 := 0x8000000000000000

/-- The bits of a double without its sign. -/
def magnitude (bits : UInt64) : UInt64 := bits &&& 0x7fffffffffffffff

/-- The bits of positive infinity; every larger magnitude is a NaN. -/
def infinity : UInt64 := 0x7ff0000000000000

def isNaN (bits : UInt64) : Bool := decide (infinity < magnitude bits)

def isInfinite (bits : UInt64) : Bool := magnitude bits == infinity

def isNegative (bits : UInt64) : Bool := decide (negativeZero ≤ bits)

def exponentBits (bits : UInt64) : Nat := (magnitude bits >>> 52).toNat

def fractionBits (bits : UInt64) : Nat := (bits &&& 0xfffffffffffff).toNat

/-- The significand: normal doubles have a leading one above the fraction. -/
def significand (bits : UInt64) : Nat :=
  if exponentBits bits = 0 then fractionBits bits else 0x10000000000000 + fractionBits bits

/-- The power of two by which the significand counts, above the least one. -/
def scale (bits : UInt64) : Nat := exponentBits bits - 1

/-- The magnitude of a finite double in units of 2^(-1074). -/
def units (bits : UInt64) : Nat := significand bits <<< scale bits

/-- A finite double in units of 2^(-1074), with its sign. -/
def signedUnits (bits : UInt64) : Int :=
  if isNegative bits then -(units bits : Int) else units bits

end TrieCollections.Binary64
