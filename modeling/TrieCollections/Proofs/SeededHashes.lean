/-
  TrieCollections/Proofs/SeededHashes.lean
  ========================================
  **What a seed and a kind do to a hash.**  However many words a value has, its hash loses nothing
  of the seed (`hashSeeded_injective`).  Seeds are used in two places, and in both of them it is
  this that matters.  An entry of a map contributes the hash of its value under the hash of its
  key, so one value weighs differently under keys that have different hashes
  (`contribution_ne_of_hashValue_ne`).  A stream that runs out hashes its key again under what is
  left, so with something else left it goes on from another hash (`sourceHash_succ_ne`).

  The kind of a value is the first word after the seed, and a single word that differs is not lost
  either.  So two values that hold the same words but are of different kinds have different hashes
  (`hashSeeded_ne_of_kind_ne`), and this goes on inside an array (`hashSeeded_array_ne_of_kind_ne`).
-/
import TrieCollections.Proofs.SharedPaths

namespace TrieCollections

open Hashing

/-! ### Seeds -/

section Seeds

variable {κ ν : Type} [Hashed κ] [Hashed ν]

/-- **A hash loses nothing of its seed.** -/
theorem hashSeeded_injective (x : κ) : Function.Injective (hashSeeded · x) :=
  hashWords_seed_injective (Hashed.words x)

/-- Equal values under keys with different hashes contribute differently. -/
theorem contribution_ne_of_hashValue_ne [BEq ν] {ok : ν → Prop} (law : LawfulOn ok) {k l : κ}
    {v w : ν} (hv : ok v) (hw : ok w) (hequal : (v == w) = true)
    (hkeys : hashValue k ≠ hashValue l) :
    Keyed.contribution (κ := κ) (hashValue k) (k, v) ≠
      Keyed.contribution (κ := κ) (hashValue l) (l, w) := by
  show hashSeeded (hashValue k) v ≠ hashSeeded (hashValue l) w
  rw [law.hashSeeded_congr hv hw hequal]
  exact (hashSeeded_injective w).ne hkeys

theorem leftover_injective {h h' : UInt64} (hleft : leftover h = leftover h') :
    h >>> 61 = h' >>> 61 := by
  have hnum : (leftover h).toNat = (leftover h').toNat := congrArg UInt64.toNat hleft
  apply UInt64.toNat_inj.mp
  simpa [toNat_leftover, Nat.shiftRight_eq_div_pow] using hnum

/-- With something else left, a stream goes on from another hash. -/
theorem sourceHash_succ_ne (k : κ) (h h' : UInt64) (round round' : Nat)
    (hleft : sourceHash (hashSeeded · k) h round >>> 61 ≠
      sourceHash (hashSeeded · k) h' round' >>> 61) :
    sourceHash (hashSeeded · k) h (round + 1) ≠ sourceHash (hashSeeded · k) h' (round' + 1) := by
  intro hsame
  apply hleft
  apply leftover_injective
  exact hashSeeded_injective k hsame

end Seeds

/-! ### Kinds -/

namespace Value

theorem kindWord_injective : Function.Injective fun kind : Kind => kind.number.toUInt64 := by
  intro k l h
  cases k <;> cases l <;> first | rfl | exact absurd h (by decide)

section Kinds

variable (seed : UInt64) {a b : Value} (hkind : a.kind ≠ b.kind)
  (hcontent : a.contentWords = b.contentWords)

include hkind hcontent

/-- **Values of different kinds that hold the same words have different hashes.** -/
theorem hashSeeded_ne_of_kind_ne : hashSeeded seed a ≠ hashSeeded seed b := by
  have hwords : ∀ x : Value,
      Hashed.words x = [] ++ x.kind.number.toUInt64 :: x.contentWords := words_eq
  have hne := kindWord_injective.ne hkind
  exact hashSeeded_ne_of_one_word (hwords a) (hcontent ▸ hwords b) hne seed

/-- A kind is not lost in an array of other values either. -/
theorem hashSeeded_array_ne_of_kind_ne (front rest : List Value) :
    hashSeeded seed (array (front ++ a :: rest)) ≠
      hashSeeded seed (array (front ++ b :: rest)) := by
  have hwords : ∀ x : Value, Hashed.words (array (front ++ x :: rest)) =
      (Kind.array.number.toUInt64 :: lengthWord (front.length + (rest.length + 1)) ::
        elementWords front) ++ x.kind.number.toUInt64 :: (x.contentWords ++ elementWords rest) := by
    intro x
    simp [words_eq, kind, contentWords, elementWords_eq]
  have hne := kindWord_injective.ne hkind
  exact hashSeeded_ne_of_one_word (hwords a) (hcontent ▸ hwords b) hne seed

end Kinds

end Value

/-- **Neither the seed nor the kind is lost in a hash.**  The hash of a value under a seed is
    injective in the seed; so equal values under keys with different hashes contribute differently
    to the hash of a map, and two streams of a key with something else left go on from different
    hashes.  Values of different kinds with the same words have different hashes under every seed,
    however many words these are. -/
theorem seed_and_kind_kept {κ ν : Type} [Hashed κ] [BEq ν] [Hashed ν] {ok : ν → Prop}
    (law : LawfulOn ok) :
    (∀ x : κ, Function.Injective (hashSeeded · x)) ∧
      (∀ {k l : κ} {v w : ν}, ok v → ok w → (v == w) = true → hashValue k ≠ hashValue l →
        Keyed.contribution (κ := κ) (hashValue k) (k, v) ≠
          Keyed.contribution (κ := κ) (hashValue l) (l, w)) ∧
      (∀ (k : κ) (h h' : UInt64) (round round' : Nat),
        sourceHash (hashSeeded · k) h round >>> 61 ≠ sourceHash (hashSeeded · k) h' round' >>> 61 →
        sourceHash (hashSeeded · k) h (round + 1) ≠
          sourceHash (hashSeeded · k) h' (round' + 1)) ∧
      (∀ (seed : UInt64) {a b : Value}, a.kind ≠ b.kind → a.contentWords = b.contentWords →
        hashSeeded seed a ≠ hashSeeded seed b) :=
  ⟨hashSeeded_injective, contribution_ne_of_hashValue_ne law, sourceHash_succ_ne,
    Value.hashSeeded_ne_of_kind_ne⟩

/-- The value 7 under two keys, a key whose first round leaves two different things, and two pairs
    of values that hold the same words: an integer and the empty text, and two empty
    collections. -/
theorem seed_and_kind_kept_small :
    (hashValue (1 : UInt64) ≠ hashValue (2 : UInt64) ∧
      Keyed.contribution (κ := UInt64) (hashValue (1 : UInt64)) ((1 : UInt64), (7 : UInt64)) ≠
        Keyed.contribution (κ := UInt64) (hashValue (2 : UInt64)) ((2 : UInt64), (7 : UInt64))) ∧
      hashSeeded (leftover 0) (7 : UInt64) ≠
        hashSeeded (leftover 0x8000000000000000) (7 : UInt64) ∧
      ((Value.int 255).contentWords = (Value.str "").contentWords ∧
        hashSeeded 0 (Value.int 255) ≠ hashSeeded 0 (Value.str "")) ∧
      ((Value.set ∅).contentWords = (Value.map ∅).contentWords ∧
        hashSeeded 5 (Value.set ∅) ≠ hashSeeded 5 (Value.map ∅)) := by
  obtain ⟨-, hvalues, hrounds, hkinds⟩ :=
    seed_and_kind_kept (κ := UInt64) (lawfulOn_true (κ := UInt64))
  have hkeys : hashValue (1 : UInt64) ≠ hashValue (2 : UInt64) := by decide
  have htext : (Value.int 255).contentWords = (Value.str "").contentWords := by
    simp only [Value.contentWords]
    decide +kernel
  have hempty : (Value.set ∅).contentWords = (Value.map ∅).contentWords := by
    simp only [Value.contentWords]
    decide
  refine ⟨⟨hkeys, hvalues trivial trivial (by decide) hkeys⟩, ?_, ⟨htext, ?_⟩, hempty, ?_⟩
  · exact hrounds 7 0 0x8000000000000000 0 0 (by decide)
  · exact hkinds 0 (by decide) htext
  · exact hkinds 5 (by decide) hempty

end TrieCollections
