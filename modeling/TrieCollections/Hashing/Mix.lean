/-
  TrieCollections/Hashing/Mix.lean
  ================================
  **The hash of a list of words.**  A value is hashed by listing the 64-bit words
  it consists of and feeding them, one after the other, into a 64-bit state:

      state' = (rotate state by 5  xor  word) * multiplier      (modulo 2^64)

  A seed is fed in as the first word, from the zero state.  The multiplication
  moves information towards the high bits only, and a trie consumes hashes from
  the low end, so the last state goes through an avalanche (`finalize`): three
  xor-shifts and two multiplications by odd constants.

  Every step here is a permutation of the 64-bit words for each fixed input word:
  nothing that enters the state is lost again.
-/

namespace TrieCollections.Hashing

/-- The multiplier of one mixing step: an odd constant. -/
def multiplier : UInt64 := 0x517cc1b727220a95

def rotate5 (h : UInt64) : UInt64 := h <<< 5 ||| h >>> 59

/-- Feed one word into the state. -/
def mix (state word : UInt64) : UInt64 := (rotate5 state ^^^ word) * multiplier

def mixAll (state : UInt64) (words : List UInt64) : UInt64 := words.foldl mix state

theorem mixAll_cons (state word : UInt64) (words : List UInt64) :
    mixAll state (word :: words) = mixAll (mix state word) words := rfl

theorem mixAll_append (state : UInt64) (ws vs : List UInt64) :
    mixAll state (ws ++ vs) = mixAll (mixAll state ws) vs := List.foldl_append ..

/-- Fold the high half of a word into its low half. -/
def xorShift33 (h : UInt64) : UInt64 := h ^^^ h >>> 33

/-- The avalanche that spreads every bit of the last state over the whole word. -/
def finalize (h : UInt64) : UInt64 :=
  xorShift33 (xorShift33 (xorShift33 h * 0xff51afd7ed558ccd) * 0xc4ceb9fe1a85ec53)

/-- The hash of a list of words under a seed. -/
def hashWords (seed : UInt64) (words : List UInt64) : UInt64 :=
  finalize (mixAll 0 (seed :: words))

end TrieCollections.Hashing
