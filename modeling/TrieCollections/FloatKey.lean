/-
  TrieCollections/FloatKey.lean
  =============================
  **Floats fit to be keys.**  A key has to equal itself and equal keys have to hash
  alike.  A NaN fails the first, so it is refused.  The two zeros are equal but differ
  in a bit, so the negative one is read as the positive one.  On the doubles that are
  left equality is equality of bits.
-/
import TrieCollections.Decimal.Binary64
import TrieCollections.Failure
import TrieCollections.Hashing.Hashed

namespace TrieCollections

/-- The bits of a double that is neither a NaN nor the negative zero. -/
structure FloatKey where
  bits : UInt64
  comparable : Binary64.isNaN bits = false ∧ bits ≠ Binary64.negativeZero

namespace FloatKey

@[ext]
theorem ext {x y : FloatKey} (h : x.bits = y.bits) : x = y := by
  cases x; cases y; cases h; rfl

instance : DecidableEq FloatKey := fun x y =>
  if h : x.bits = y.bits then isTrue (ext h) else isFalse fun e => h (e ▸ rfl)

/-- The key for a double with the given bits. -/
def ofBits? (bits : UInt64) : Except Failure FloatKey :=
  if h : Binary64.isNaN bits = false then
    if hz : bits = Binary64.negativeZero then .ok ⟨0, by decide, by decide⟩
    else .ok ⟨bits, h, hz⟩
  else .error (.unhashable "f64" "NaN is not equal to itself")

instance : Hashed FloatKey where
  words x := [x.bits]

end FloatKey

end TrieCollections
