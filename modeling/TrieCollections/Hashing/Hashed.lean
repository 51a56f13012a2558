/-
  TrieCollections/Hashing/Hashed.lean
  ===================================
  **Hashed types.**  A type is hashed by giving, for each of its values, the list
  of words the value consists of.  Scalars are one word, text is cut into words of
  eight bytes and closed by a word that no byte tail can produce, a list starts
  with its length, an option with a discriminant, a pair is the concatenation.

  A key type is *lawful* when its `==` is an equivalence and equal keys have equal
  hashes under every seed.  Nothing is asked of different keys: any number of them
  may share all their hashes, and the trie still keeps them apart by `==`.
-/
import TrieCollections.Hashing.Mix

namespace TrieCollections

open Hashing

/-- A type whose values are hashed through the words they consist of. -/
class Hashed (α : Type) where
  words : α → List UInt64

/-- The hash of a value under a seed. -/
def hashSeeded {α : Type} [Hashed α] (seed : UInt64) (x : α) : UInt64 :=
  hashWords seed (Hashed.words x)

/-- The hash of a value: the one under the zero seed. -/
def hashValue {α : Type} [Hashed α] (x : α) : UInt64 := hashSeeded 0 x

/-- `==` is an equivalence, and equal values have equal hashes under every seed. -/
class LawfulHashed (α : Type) [BEq α] [Hashed α] : Prop extends EquivBEq α where
  hashSeeded_congr : ∀ {x y : α}, (x == y) = true → ∀ seed, hashSeeded seed x = hashSeeded seed y

theorem hashSeeded_eq_of_beq {α : Type} [BEq α] [Hashed α] [LawfulHashed α] {x y : α}
    (h : (x == y) = true) (seed : UInt64) : hashSeeded seed x = hashSeeded seed y :=
  LawfulHashed.hashSeeded_congr h seed

instance (α : Type) [BEq α] [LawfulBEq α] [Hashed α] : LawfulHashed α where
  hashSeeded_congr h seed := by rw [eq_of_beq h]

/-! ### Scalars -/

instance : Hashed Unit where
  words _ := []

instance : Hashed UInt64 where
  words n := [n]

instance : Hashed UInt32 where
  words n := [n.toUInt64]

instance : Hashed UInt8 where
  words n := [n.toUInt64]

instance : Hashed Bool where
  words b := [b.toUInt64]

/-- A signed integer is hashed by its two's complement bits. -/
instance : Hashed Int64 where
  words i := [i.toUInt64]

/-! ### Text -/

/-- Little-endian reading of a list of bytes. -/
def wordOfBytes : List UInt8 → UInt64
  | [] => 0
  | b :: bs => b.toUInt64 ||| wordOfBytes bs <<< 8

/-- The bytes that remain after all groups of eight: at most one word of four, one
    of two and one of one byte. -/
def tailWords (bytes : List UInt8) : List UInt64 :=
  let afterFour := if 4 ≤ bytes.length then bytes.drop 4 else bytes
  let afterTwo := if 2 ≤ afterFour.length then afterFour.drop 2 else afterFour
  (if 4 ≤ bytes.length then [wordOfBytes (bytes.take 4)] else [])
    ++ (if 2 ≤ afterFour.length then [wordOfBytes (afterFour.take 2)] else [])
    ++ (if 1 ≤ afterTwo.length then [wordOfBytes (afterTwo.take 1)] else [])

/-- Bytes cut into words: groups of eight first, then the tail. -/
def wordsOfBytes : List UInt8 → List UInt64
  | b₀ :: b₁ :: b₂ :: b₃ :: b₄ :: b₅ :: b₆ :: b₇ :: rest =>
    wordOfBytes [b₀, b₁, b₂, b₃, b₄, b₅, b₆, b₇] :: wordsOfBytes rest
  | bytes => tailWords bytes

/-- The word that closes a text. -/
def endOfText : UInt64 := 0xff

/-- Text is hashed by its UTF-8 bytes. -/
instance : Hashed String where
  words s := wordsOfBytes s.toUTF8.toList ++ [endOfText]

/-! ### Compound types -/

def lengthWord (n : Nat) : UInt64 := UInt64.ofNat n

instance (α : Type) [Hashed α] : Hashed (List α) where
  words xs := lengthWord xs.length :: xs.flatMap Hashed.words

instance (α : Type) [Hashed α] : Hashed (Option α) where
  words
    | none => [0]
    | some x => 1 :: Hashed.words x

instance (α β : Type) [Hashed α] [Hashed β] : Hashed (α × β) where
  words p := Hashed.words p.1 ++ Hashed.words p.2

end TrieCollections
