/-
  TrieCollections/Hashing/IndexStream.lean
  ========================================
  **From a hash to an unbounded stream of slots.**  A trie with 32 slots per branch
  consumes five bits of a key's hash per level.  The stream holds the bits not yet
  consumed below a sentinel bit, so it can tell how many are left: of the 64 bits
  of a hash the lowest one is dropped to make room for the sentinel, 63 remain,
  and these give twelve slots.

  When fewer than five bits are left above zero, the stream *reseeds*: the key is
  hashed again with the remaining code as the seed.  Two keys whose hashes agree
  can thus still part further down.
-/
import TrieCollections.Hashing.Hashed

namespace TrieCollections

/-- How many bits of the hash one level of a trie consumes. -/
def levelBits : Nat := 5

/-- One of the slots of a branch: a number of `levelBits` bits. -/
abbrev Slot := Fin 32

/-- How many levels two different keys may share before they are kept in one list:
    four full reseeds of the stream. -/
def maxDepth : Nat := 4 * (64 / levelBits)

/-- The bits of a key's hash not yet consumed, below a sentinel bit. -/
structure IndexStream where
  code : UInt64
deriving DecidableEq

namespace IndexStream

/-- The bit above all unconsumed bits. -/
def sentinel : UInt64 := 0x8000000000000000

/-- The stream that starts with the bits of a hash. -/
def ofHash (hash : UInt64) : IndexStream := ⟨hash >>> 1 ||| sentinel⟩

/-- The stream with enough bits for one more level: a code below 2^5 has fewer than
    five bits left.  `rehash` gives the key's hash under a seed. -/
def refill (rehash : UInt64 → UInt64) (s : IndexStream) : IndexStream :=
  if s.code < 32 then ofHash (rehash s.code) else s

/-- The slot that the lowest five bits of a code name. -/
def slotOf (code : UInt64) : Slot :=
  ⟨(code &&& 31).toNat, by
    rw [UInt64.toNat_and]
    exact Nat.lt_of_le_of_lt Nat.and_le_right (by decide)⟩

/-- Draw the slot for the next level down. -/
def next (rehash : UInt64 → UInt64) (s : IndexStream) : Slot × IndexStream :=
  let full := s.refill rehash
  (slotOf full.code, ⟨full.code >>> 5⟩)

/-- The stream of a key, positioned so that the next slot drawn is the one for
    `depth`. -/
def atDepth (rehash : UInt64 → UInt64) (hash : UInt64) : Nat → IndexStream
  | 0 => ofHash hash
  | depth + 1 => (next rehash (atDepth rehash hash depth)).2

theorem atDepth_zero (rehash : UInt64 → UInt64) (hash : UInt64) :
    atDepth rehash hash 0 = ofHash hash := rfl

theorem atDepth_succ (rehash : UInt64 → UInt64) (hash : UInt64) (depth : Nat) :
    atDepth rehash hash (depth + 1) = (next rehash (atDepth rehash hash depth)).2 := rfl

end IndexStream

/-- The slot that a key with the given hash takes at `depth`. -/
def slotAt {κ : Type} [Hashed κ] (key : κ) (hash : UInt64) (depth : Nat) : Slot :=
  (IndexStream.next (hashSeeded · key) (IndexStream.atDepth (hashSeeded · key) hash depth)).1

end TrieCollections
