/-
  TrieCollections/Proofs/KeyLaws.lean
  ===================================
  **What a trie needs of its keys.**  On the keys that it meets, `==` has to be an
  equivalence, and equal keys need equal hashes under every seed (`LawfulOn`).
  Nothing is asked of keys that are not equal: all their hashes may agree.

  The laws are asked on the keys that satisfy a predicate and not on the whole type.
  For most types the predicate is `True`.  A set used as a key is lawful as long as it
  came about by the operations on sets, while its type also has tries that no operation
  makes.

  From the laws follows the one fact on which routing rests: equal keys take the same
  slot at every depth (`homeSlot_congr`).
-/
import TrieCollections.Hashing.IndexStream

namespace TrieCollections

variable {κ : Type} [BEq κ] [Hashed κ]

/-- On the keys that satisfy `ok`, `==` is an equivalence, and equal keys have equal
    hashes under every seed. -/
structure LawfulOn (ok : κ → Prop) : Prop where
  refl : ∀ {x}, ok x → (x == x) = true
  symm : ∀ {x y}, ok x → ok y → (x == y) = true → (y == x) = true
  trans : ∀ {x y z}, ok x → ok y → ok z → (x == y) = true → (y == z) = true → (x == z) = true
  hashSeeded_congr : ∀ {x y}, ok x → ok y → (x == y) = true →
    ∀ seed, hashSeeded seed x = hashSeeded seed y

/-- A lawful type is lawful on all its values. -/
theorem lawfulOn_true [LawfulHashed κ] : LawfulOn fun _ : κ => True where
  refl _ := BEq.rfl
  symm _ _ h := BEq.symm h
  trans _ _ _ h h' := BEq.trans h h'
  hashSeeded_congr _ _ h := hashSeeded_eq_of_beq h

namespace LawfulOn

variable {ok : κ → Prop} (law : LawfulOn ok) {x y z : κ}

include law

theorem hashValue_congr (hx : ok x) (hy : ok y) (h : (x == y) = true) :
    hashValue x = hashValue y := law.hashSeeded_congr hx hy h 0

theorem beq_comm (hx : ok x) (hy : ok y) : (x == y) = (y == x) :=
  Bool.eq_iff_iff.mpr ⟨law.symm hx hy, law.symm hy hx⟩

theorem beq_congr (hx : ok x) (hy : ok y) (hz : ok z) (h : (x == y) = true) :
    (x == z) = (y == z) :=
  Bool.eq_iff_iff.mpr
    ⟨law.trans hy hx hz (law.symm hx hy h), law.trans hx hy hz h⟩

end LawfulOn

/-! ### The path of a key -/

/-- The stream of a key's slots, from the one for `depth` on. -/
def homeStream (k : κ) (depth : Nat) : IndexStream :=
  IndexStream.atDepth (hashSeeded · k) (hashValue k) depth

/-- The slot that a key takes at `depth`. -/
def homeSlot (k : κ) (depth : Nat) : Slot := slotAt k (hashValue k) depth

omit [BEq κ] in
theorem homeStream_zero (k : κ) : homeStream k 0 = IndexStream.ofHash (hashValue k) := rfl

omit [BEq κ] in
/-- Drawing from a key's stream gives the key's slot and leaves the stream from the next
    depth on. -/
theorem next_homeStream (k : κ) (depth : Nat) :
    (homeStream k depth).next (hashSeeded · k) = (homeSlot k depth, homeStream k (depth + 1)) :=
  rfl

omit [BEq κ] in
/-- Keys that cannot be told apart by their hashes take the same slots. -/
theorem homeSlot_eq_of_hashSeeded_eq {x y : κ} (h : ∀ seed, hashSeeded seed x = hashSeeded seed y)
    (depth : Nat) : homeSlot x depth = homeSlot y depth := by
  have hrehash : (hashSeeded · x) = (hashSeeded · y) := funext h
  have hhash : hashValue x = hashValue y := h 0
  rw [homeSlot, homeSlot, slotAt, slotAt, hhash, hrehash]

/-- **Equal keys take the same slots.** -/
theorem homeSlot_congr {ok : κ → Prop} (law : LawfulOn ok) {x y : κ} (hx : ok x) (hy : ok y)
    (h : (x == y) = true) (depth : Nat) : homeSlot x depth = homeSlot y depth :=
  homeSlot_eq_of_hashSeeded_eq (law.hashSeeded_congr hx hy h) depth

end TrieCollections
