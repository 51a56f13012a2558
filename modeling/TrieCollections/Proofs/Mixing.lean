/-
  TrieCollections/Proofs/Mixing.lean
  ==================================
  **What mixing keeps and what it cancels.**  One step rotates the state, xors a word into it and
  multiplies by an odd constant.  Each of the three can be undone, and so can the avalanche, so a
  step loses nothing of its state and nothing of its word (`mix_word_injective`,
  `mix_state_injective`).  So the seed is never lost (`hashWords_seed_injective`), and where two
  lists of words differ in one place, their hashes differ (`hashWords_ne_of_one_word`).

  Two differences can cancel, though.  An odd multiplier leaves a flipped top bit where it is,
  since all that a carry could bring from there is lost, and the rotation of the next step takes
  it to bit 4.  So to flip the top bit of a word and bit 4 of the next one comes to nothing, from
  whatever state the two are fed in (`mix_mix_flipped`).
-/
import Mathlib.Algebra.Group.Nat.Defs
import TrieCollections.Hashing.Hashed

namespace TrieCollections.Hashing

/-! ### What is kept -/

theorem getLsbD_rotate5 (h : UInt64) {i : Nat} (hi : i < 64) :
    (rotate5 h).toBitVec.getLsbD i = h.toBitVec.getLsbD ((i + 59) % 64) := by
  have hrotate : (rotate5 h).toBitVec = h.toBitVec.rotateLeft 5 := rfl
  rw [hrotate, BitVec.getLsbD_rotateLeft]
  by_cases hlow : i < 5
  · have hmod : (i + 59) % 64 = 64 - 5 + i := by omega
    simp [hlow, hmod]
  · have hmod : (i + 59) % 64 = i - 5 := by omega
    simp [hlow, hmod, hi]

theorem rotate5_injective : Function.Injective rotate5 := by
  intro x y h
  apply UInt64.toBitVec_inj.mp
  apply BitVec.eq_of_getLsbD_eq
  intro i hi
  have hbit : ∀ z : UInt64,
      z.toBitVec.getLsbD i = (rotate5 z).toBitVec.getLsbD ((i + 5) % 64) := by
    intro z
    have hback : ((i + 5) % 64 + 59) % 64 = i := by omega
    rw [getLsbD_rotate5 z (Nat.mod_lt _ (by decide)), hback]
  rw [hbit, hbit, h]

/-- A word can be divided by whatever has an inverse. -/
theorem mul_injective {k : UInt64} (inverse : UInt64) (h : k * inverse = 1) :
    Function.Injective (· * k : UInt64 → UInt64) := by
  intro x y hxy
  have hundo : ∀ z : UInt64, z * k * inverse = z := by
    intro z
    rw [UInt64.mul_assoc, h, UInt64.mul_one]
  rw [← hundo x, ← hundo y]
  exact congrArg (· * inverse) hxy

theorem mul_multiplier_injective : Function.Injective (· * multiplier) :=
  mul_injective 0x2040003d780970bd (by decide)

/-- Folded twice, the low half is again what it was: the high half never changed. -/
theorem xorShift33_xorShift33 (h : UInt64) : xorShift33 (xorShift33 h) = h := by
  apply UInt64.toBitVec_inj.mp
  apply BitVec.eq_of_getLsbD_eq
  intro i hi
  have hfold : ∀ z : UInt64, (xorShift33 z).toBitVec = z.toBitVec ^^^ z.toBitVec >>> 33 :=
    fun _ => rfl
  have hhigh : h.toBitVec.getLsbD (33 + (33 + i)) = false := BitVec.getLsbD_of_ge _ _ (by omega)
  rw [hfold, hfold]
  simp only [BitVec.getLsbD_xor, BitVec.getLsbD_ushiftRight, hhigh]
  cases h.toBitVec.getLsbD i <;> cases h.toBitVec.getLsbD (33 + i) <;> rfl

theorem xorShift33_injective : Function.Injective xorShift33 :=
  Function.LeftInverse.injective xorShift33_xorShift33

/-- **The avalanche loses nothing.** -/
theorem finalize_injective : Function.Injective finalize := by
  intro x y h
  have hsecond := xorShift33_injective h
  have hfirst := mul_injective 0x9cb4b2f8129337db (by decide) hsecond
  have hnone := mul_injective 0x4f74430c22a54005 (by decide)
    (xorShift33_injective hfirst)
  exact xorShift33_injective hnone

theorem xor_right_injective (s : UInt64) : Function.Injective (s ^^^ ·) := by
  intro w v h
  have hundo : ∀ z : UInt64, s ^^^ (s ^^^ z) = z := by
    intro z
    rw [← UInt64.xor_assoc, UInt64.xor_self, UInt64.zero_xor]
  rw [← hundo w, ← hundo v]
  exact congrArg (s ^^^ ·) h

/-- A step loses nothing of its word. -/
theorem mix_word_injective (state : UInt64) : Function.Injective (mix state) :=
  mul_multiplier_injective.comp (xor_right_injective (rotate5 state))

/-- A step loses nothing of its state. -/
theorem mix_state_injective (word : UInt64) : Function.Injective (mix · word) := by
  intro s t h
  have hxor : word ^^^ rotate5 s = word ^^^ rotate5 t := by
    rw [UInt64.xor_comm word, UInt64.xor_comm word]
    exact mul_multiplier_injective h
  exact rotate5_injective (xor_right_injective word hxor)

theorem mixAll_state_injective (words : List UInt64) : Function.Injective (mixAll · words) := by
  induction words with
  | nil => exact fun _ _ h => h
  | cons word words ih => exact ih.comp (mix_state_injective word)

/-- **The seed is never lost**, whatever follows it. -/
theorem hashWords_seed_injective (words : List UInt64) :
    Function.Injective (hashWords · words) :=
  finalize_injective.comp ((mixAll_state_injective words).comp (mix_word_injective 0))

/-- From the zero state one word leads to any state. -/
theorem exists_mix_zero_eq (state : UInt64) : ∃ word, mix 0 word = state := by
  refine ⟨state * 0x2040003d780970bd, ?_⟩
  have hinverse : (0x2040003d780970bd : UInt64) * multiplier = 1 := by decide
  have hrotate : rotate5 0 = 0 := rfl
  rw [mix, hrotate, UInt64.zero_xor, UInt64.mul_assoc, hinverse, UInt64.mul_one]

/-- **What no seed tells apart leads from any state to the same one**, so it cannot be told apart
    within a longer list of words either. -/
theorem mixAll_eq_of_hashWords_eq {ws vs : List UInt64}
    (h : ∀ seed, hashWords seed ws = hashWords seed vs) (state : UInt64) :
    mixAll state ws = mixAll state vs := by
  obtain ⟨seed, rfl⟩ := exists_mix_zero_eq state
  exact finalize_injective (h seed)

/-- **A single word that differs is never lost**, wherever it stands and under every seed. -/
theorem hashWords_ne_of_one_word (seed : UInt64) (front rest : List UInt64) {w v : UInt64}
    (h : w ≠ v) : hashWords seed (front ++ w :: rest) ≠ hashWords seed (front ++ v :: rest) := by
  intro heq
  have hall := finalize_injective heq
  rw [mixAll_cons, mixAll_cons, mixAll_append, mixAll_append, mixAll_cons, mixAll_cons] at hall
  exact h (mix_word_injective _ (mixAll_state_injective rest hall))

/-! ### What cancels -/

/-- The highest bit of a word. -/
def topBit : UInt64 := 0x8000000000000000

theorem getLsbD_topBit (i : Nat) : topBit.toBitVec.getLsbD i = decide (63 = i) := by
  have hpow : topBit.toBitVec = BitVec.twoPow 64 63 := rfl
  rw [hpow, BitVec.getLsbD_twoPow]
  rfl

theorem getLsbD_sixteen (i : Nat) : (16 : UInt64).toBitVec.getLsbD i = decide (4 = i) := by
  have hpow : (16 : UInt64).toBitVec = BitVec.twoPow 64 4 := rfl
  rw [hpow, BitVec.getLsbD_twoPow]
  rfl

/-- To flip the highest of 64 bits is to add it, the carry being lost. -/
theorem xor_two_pow_63 {n : Nat} (hn : n < 2 ^ 64) : n ^^^ 2 ^ 63 = (n + 2 ^ 63) % 2 ^ 64 := by
  apply Nat.eq_of_testBit_eq
  intro i
  rw [Nat.testBit_xor, Nat.testBit_two_pow, Nat.testBit_mod_two_pow, Nat.add_comm]
  rcases Nat.lt_trichotomy i 63 with hi | rfl | hi
  · have hlow : i < 64 := by omega
    have hne : ¬ 63 = i := by omega
    simp [Nat.testBit_two_pow_add_gt hi, hlow, hne]
  · rw [Nat.testBit_two_pow_add_eq]
    simp
  · have hhigh : n.testBit i = false :=
      Nat.testBit_lt_two_pow (Nat.lt_of_lt_of_le hn (Nat.pow_le_pow_right (by decide) (by omega)))
    have hout : ¬ i < 64 := by omega
    have hne : ¬ 63 = i := by omega
    simp [hhigh, hout, hne]

theorem xor_topBit (x : UInt64) : x ^^^ topBit = x + topBit := by
  apply UInt64.toNat_inj.mp
  rw [UInt64.toNat_xor, UInt64.toNat_add]
  exact xor_two_pow_63 x.toNat_lt

/-- An odd multiplier leaves a flipped top bit where it is. -/
theorem mul_xor_topBit (x : UInt64) :
    (x ^^^ topBit) * multiplier = x * multiplier ^^^ topBit := by
  have hodd : topBit * multiplier = topBit := by decide
  rw [xor_topBit, xor_topBit, UInt64.add_mul, hodd]

/-- The rotation takes a flipped top bit to bit 4. -/
theorem rotate5_xor_topBit (x : UInt64) : rotate5 (x ^^^ topBit) = rotate5 x ^^^ 16 := by
  apply UInt64.toBitVec_inj.mp
  apply BitVec.eq_of_getLsbD_eq
  intro i hi
  have hfrom : (63 = (i + 59) % 64) = (4 = i) := propext ⟨by omega, by omega⟩
  rw [getLsbD_rotate5 _ hi, UInt64.toBitVec_xor, UInt64.toBitVec_xor, BitVec.getLsbD_xor,
    BitVec.getLsbD_xor, getLsbD_rotate5 _ hi, getLsbD_topBit, getLsbD_sixteen]
  simp only [hfrom]

/-- **Two flips that cancel**: the top bit of a word and bit 4 of the next one. -/
theorem mix_mix_flipped (state w v : UInt64) :
    mix (mix state (w ^^^ topBit)) (v ^^^ 16) = mix (mix state w) v := by
  have hfirst : mix state (w ^^^ topBit) = mix state w ^^^ topBit := by
    rw [mix, ← UInt64.xor_assoc, mul_xor_topBit]
    rfl
  have hcancel : rotate5 (mix state w) ^^^ 16 ^^^ (v ^^^ 16) = rotate5 (mix state w) ^^^ v := by
    rw [UInt64.xor_comm v, ← UInt64.xor_assoc, UInt64.xor_assoc _ 16 16, UInt64.xor_self,
      UInt64.xor_zero]
  rw [hfirst, mix, rotate5_xor_topBit, hcancel]
  rfl

theorem hashWords_flipped (seed : UInt64) (front rest : List UInt64) (w v : UInt64) :
    hashWords seed (front ++ (w ^^^ topBit) :: (v ^^^ 16) :: rest) =
      hashWords seed (front ++ w :: v :: rest) := by
  rw [hashWords, hashWords, mixAll_cons, mixAll_cons, mixAll_append, mixAll_append, mixAll_cons,
    mixAll_cons, mixAll_cons, mixAll_cons, mix_mix_flipped]

end TrieCollections.Hashing
