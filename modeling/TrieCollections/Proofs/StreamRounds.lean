/-
  TrieCollections/Proofs/StreamRounds.lean
  ========================================
  **The stream in rounds.**  The 63 bits of a hash that are left below the sentinel give twelve
  slots of five bits, and three bits remain.  So a stream goes in rounds of twelve slots, each
  from a hash of its own: the first one from the hash that the stream was started with, and every
  other one from the hash of the key under what the round before has left, three bits and the
  sentinel (`sourceHash`, and `roundHash` for a stream that a key's own hash started).

  In a round the code is the hash without its lowest bit, plus the sentinel, divided by 32 for each
  slot that was drawn (`toNat_refill`).  As long as a slot is left the sentinel is still above it,
  so it is never part of a slot, and the slots of a round are sixty bits of its hash in groups of
  five (`homeSlot_eq`, and `next_eq_slotOf` in terms of words).  That the code never vanishes, and
  that it is refilled after every twelfth slot and at no other time, is read off from the code too
  (`code_bounds`).

  Two keys take the same slots in a round exactly when their hashes have the sixty bits in common
  (`round_agrees_iff`).
-/
import Mathlib.Algebra.Group.Nat.Defs
import TrieCollections.Proofs.KeyLaws

namespace TrieCollections

/-- How many slots one hash gives. -/
def slotsPerRound : Nat := 12

variable {κ : Type} [Hashed κ]

/-- What a round leaves as the seed of the next one: three bits of its hash below the sentinel. -/
def leftover (hash : UInt64) : UInt64 := hash >>> 61 ||| 8

/-- The hash that gives the slots of a round. -/
def roundHash (k : κ) : Nat → UInt64
  | 0 => hashValue k
  | round + 1 => hashSeeded (leftover (roundHash k round)) k

/-- The sixty bits of a round's hash that its slots are made of. -/
def roundBits (k : κ) (round : Nat) : Nat := (roundHash k round).toNat / 2 % 2 ^ 60

/-! ### Codes -/

omit [Hashed κ] in
theorem toNat_leftover (hash : UInt64) : (leftover hash).toNat = 8 + hash.toNat / 2 ^ 61 := by
  have hlow : hash.toNat / 2 ^ 61 < 2 ^ 3 := by
    have hlt := hash.toNat_lt
    omega
  have hshift : (hash >>> 61).toNat = hash.toNat / 2 ^ 61 := by
    rw [UInt64.toNat_shiftRight, Nat.shiftRight_eq_div_pow]
    rfl
  rw [leftover, UInt64.toNat_or, hshift, Nat.or_comm]
  exact (Nat.two_pow_add_eq_or_of_lt hlow 1).symm

theorem toNat_ofHash (hash : UInt64) :
    (IndexStream.ofHash hash).code.toNat = 2 ^ 63 + hash.toNat / 2 := by
  have hlow : hash.toNat / 2 < 2 ^ 63 := by
    have hlt := hash.toNat_lt
    omega
  have hshift : (hash >>> 1).toNat = hash.toNat / 2 := by
    rw [UInt64.toNat_shiftRight, Nat.shiftRight_eq_div_pow]
    rfl
  rw [IndexStream.ofHash, UInt64.toNat_or, hshift, Nat.or_comm]
  exact (Nat.two_pow_add_eq_or_of_lt hlow 1).symm

theorem toNat_slotOf (code : UInt64) : (IndexStream.slotOf code).val = code.toNat % 32 := by
  show (code &&& 31).toNat = code.toNat % 32
  rw [UInt64.toNat_and]
  exact Nat.and_two_pow_sub_one_eq_mod code.toNat 5

/-- With a slot left the stream is not refilled. -/
theorem refill_of_le {rehash : UInt64 → UInt64} {s : IndexStream} (h : 32 ≤ s.code.toNat) :
    s.refill rehash = s := by
  rw [IndexStream.refill, if_neg]
  rw [UInt64.lt_iff_toNat_lt]
  exact Nat.not_lt.mpr h

theorem refill_of_lt {rehash : UInt64 → UInt64} {s : IndexStream} (h : s.code.toNat < 32) :
    s.refill rehash = .ofHash (rehash s.code) := by
  rw [IndexStream.refill, if_pos]
  rw [UInt64.lt_iff_toNat_lt]
  exact h

/-! ### The rounds of a stream -/

/-- The hash that gives the slots of a round, where `hash` gives those of the first one. -/
def sourceHash (rehash : UInt64 → UInt64) (hash : UInt64) : Nat → UInt64
  | 0 => hash
  | round + 1 => rehash (leftover (sourceHash rehash hash round))

section Streams

open IndexStream (atDepth)

variable (rehash : UInt64 → UInt64) (hash : UInt64)

theorem toNat_code_succ (depth : Nat) :
    (atDepth rehash hash (depth + 1)).code.toNat =
      ((atDepth rehash hash depth).refill rehash).code.toNat / 32 := by
  show (((atDepth rehash hash depth).refill rehash).code >>> 5).toNat = _
  rw [UInt64.toNat_shiftRight, Nat.shiftRight_eq_div_pow]
  rfl

/-- While a slot is left in a round, the sentinel is above it. -/
theorem le_code {i : Nat} (hi : i < slotsPerRound) (n : Nat) : 32 ≤ (2 ^ 63 + n) / 32 ^ i := by
  rw [Nat.le_div_iff_mul_le (Nat.pow_pos (by decide))]
  calc 32 * 32 ^ i ≤ 32 * 32 ^ 11 :=
        Nat.mul_le_mul_left _ (Nat.pow_le_pow_right (by decide) (Nat.le_of_lt_succ hi))
    _ ≤ 2 ^ 63 + n := by omega

section Round

variable {rehash hash} {start : Nat} {source : UInt64}
  (hstart : (atDepth rehash hash start).refill rehash = .ofHash source)

include hstart

/-- Within a round nothing is refilled, and each slot takes five bits off the code. -/
theorem toNat_code_add {i : Nat} (hi : i + 1 < slotsPerRound) :
    (atDepth rehash hash (start + (i + 1))).code.toNat =
      (2 ^ 63 + source.toNat / 2) / 32 ^ (i + 1) := by
  induction i with
  | zero => rw [toNat_code_succ, Nat.add_zero, hstart, toNat_ofHash, Nat.pow_one]
  | succ i ih =>
    have hcode := ih (Nat.lt_of_succ_lt hi)
    have hleft := le_code (Nat.lt_of_succ_lt hi) (source.toNat / 2)
    rw [← Nat.add_assoc, toNat_code_succ, refill_of_le (hcode ▸ hleft), hcode,
      Nat.div_div_eq_div_mul, ← Nat.pow_succ]

theorem toNat_refill_add {i : Nat} (hi : i < slotsPerRound) :
    ((atDepth rehash hash (start + i)).refill rehash).code.toNat =
      (2 ^ 63 + source.toNat / 2) / 32 ^ i := by
  cases i with
  | zero => simp [hstart, toNat_ofHash]
  | succ i =>
    have hcode := toNat_code_add hstart hi
    rw [refill_of_le (hcode ▸ le_code hi _), hcode]

/-- After the twelfth slot three bits are left, with the sentinel above them. -/
theorem code_after_round :
    (atDepth rehash hash (start + slotsPerRound)).code = leftover source := by
  apply UInt64.toNat_inj.mp
  have hlast := toNat_refill_add hstart (i := 11) (by decide)
  rw [slotsPerRound, toNat_leftover, toNat_code_succ rehash hash (start + 11), hlast]
  omega

end Round

theorem leftover_lt (source : UInt64) : (leftover source).toNat < 32 := by
  have hword := source.toNat_lt
  rw [toNat_leftover]
  omega

/-- **Each round starts from its hash.** -/
theorem refill_round (round : Nat) :
    (atDepth rehash hash (slotsPerRound * round)).refill rehash =
      .ofHash (sourceHash rehash hash round) := by
  induction round with
  | zero =>
    apply refill_of_le
    rw [Nat.mul_zero, IndexStream.atDepth_zero, toNat_ofHash]
    omega
  | succ round ih =>
    have hcode := code_after_round ih
    rw [Nat.mul_succ, refill_of_lt (hcode ▸ leftover_lt _), hcode]
    rfl

/-- The code that a slot is drawn from. -/
theorem toNat_refill (round : Nat) {i : Nat} (hi : i < slotsPerRound) :
    ((atDepth rehash hash (slotsPerRound * round + i)).refill rehash).code.toNat =
      (2 ^ 63 + (sourceHash rehash hash round).toNat / 2) / 32 ^ i :=
  toNat_refill_add (refill_round rehash hash round) hi

/-- **When the stream is refilled**: before every twelfth slot but the first one.  What is left of
    the code then is three bits below the sentinel, and never nothing. -/
theorem code_bounds (depth : Nat) :
    8 ≤ (atDepth rehash hash depth).code.toNat ∧
      ((atDepth rehash hash depth).code.toNat < 32 ↔
        0 < depth ∧ depth % slotsPerRound = 0) := by
  obtain ⟨round, i, hi, rfl⟩ : ∃ round i, i < slotsPerRound ∧ depth = slotsPerRound * round + i :=
    ⟨_, _, Nat.mod_lt _ (by decide), (Nat.div_add_mod depth slotsPerRound).symm⟩
  have hmod : (slotsPerRound * round + i) % slotsPerRound = i := by
    rw [Nat.mul_add_mod, Nat.mod_eq_of_lt hi]
  rw [hmod]
  rcases i with _ | i
  · rcases round with _ | round
    · have hcode := toNat_ofHash hash
      rw [Nat.mul_zero, IndexStream.atDepth_zero]
      omega
    · have hcode := code_after_round (refill_round rehash hash round)
      have hlt := leftover_lt (sourceHash rehash hash round)
      have hle := toNat_leftover (sourceHash rehash hash round)
      rw [Nat.add_zero, Nat.mul_succ, hcode]
      rw [slotsPerRound]
      omega
  · have hcode := toNat_code_add (refill_round rehash hash round) hi
    have hle := le_code hi ((sourceHash rehash hash round).toNat / 2)
    omega

end Streams

/-- The stream of a key, filled up for the slot that is drawn next. -/
def fullStream (k : κ) (depth : Nat) : IndexStream := (homeStream k depth).refill (hashSeeded · k)

theorem roundHash_eq (k : κ) (round : Nat) :
    roundHash k round = sourceHash (hashSeeded · k) (hashValue k) round := by
  induction round with
  | zero => rfl
  | succ round ih => rw [roundHash, sourceHash, ih]

theorem toNat_fullStream (k : κ) (round : Nat) {i : Nat} (hi : i < slotsPerRound) :
    (fullStream k (slotsPerRound * round + i)).code.toNat =
      (2 ^ 63 + (roundHash k round).toNat / 2) / 32 ^ i := by
  rw [roundHash_eq]
  exact toNat_refill _ _ round hi

/-! ### Slots -/

/-- The sentinel is a multiple of 32 above every slot of a round. -/
theorem sentinel_add_mod {i : Nat} (hi : i < slotsPerRound) (n : Nat) :
    (2 ^ 63 + n) / 32 ^ i % 32 = n / 32 ^ i % 32 := by
  have hsentinel : 2 ^ 63 = 32 ^ i * (32 * 2 ^ (5 * (11 - i) + 3)) := by
    have hexp : 63 = 5 * i + (5 + (5 * (11 - i) + 3)) := by
      rw [slotsPerRound] at hi
      omega
    rw [hexp, Nat.pow_add, Nat.pow_add, Nat.pow_mul]
  rw [hsentinel, Nat.mul_add_div (Nat.pow_pos (by decide)), Nat.mul_add_mod]

/-- **The slot at a depth**: five bits of the hash of the round that the depth is in. -/
theorem homeSlot_eq (k : κ) (round i : Nat) (hi : i < slotsPerRound) :
    (homeSlot k (slotsPerRound * round + i)).val =
      (roundHash k round).toNat / 2 / 32 ^ i % 32 := by
  have hslot : homeSlot k (slotsPerRound * round + i) =
      IndexStream.slotOf (fullStream k (slotsPerRound * round + i)).code := rfl
  rw [hslot, toNat_slotOf, toNat_fullStream k round hi, sentinel_add_mod hi]

/-- Numbers agree in their lowest digits when they agree in each of these. -/
theorem mod_pow_eq_iff (base digits m n : Nat) :
    m % base ^ digits = n % base ^ digits ↔
      ∀ i < digits, m / base ^ i % base = n / base ^ i % base := by
  constructor
  · intro h i hi
    have hdigit : ∀ x : Nat, x / base ^ i % base = x % base ^ digits / base ^ i % base := by
      intro x
      have hsplit : base ^ digits = base ^ i * base ^ (digits - i) := by
        rw [← Nat.pow_add, Nat.add_sub_cancel' (Nat.le_of_lt hi)]
      have hdvd : base ^ 1 ∣ base ^ (digits - i) := Nat.pow_dvd_pow base (by omega)
      rw [Nat.pow_one] at hdvd
      rw [hsplit, Nat.mod_mul_right_div_self, Nat.mod_mod_of_dvd _ hdvd]
    rw [hdigit m, hdigit n, h]
  · intro h
    induction digits with
    | zero => rw [Nat.pow_zero, Nat.mod_one, Nat.mod_one]
    | succ digits ih =>
      rw [Nat.mod_pow_succ, Nat.mod_pow_succ, ih fun i hi => h i (Nat.lt_succ_of_lt hi),
        h digits (Nat.lt_succ_self digits)]

/-- **Two keys take the same slots in a round when its sixty bits are the same.** -/
theorem round_agrees_iff (k l : κ) (round : Nat) :
    (∀ i < slotsPerRound,
      homeSlot k (slotsPerRound * round + i) = homeSlot l (slotsPerRound * round + i)) ↔
      roundBits k round = roundBits l round := by
  have hbits : 2 ^ 60 = 32 ^ slotsPerRound := by decide
  rw [roundBits, roundBits, hbits, mod_pow_eq_iff]
  refine forall₂_congr fun i hi => ?_
  rw [← homeSlot_eq k round i hi, ← homeSlot_eq l round i hi, Fin.ext_iff]

/-! ### The closed form -/

/-- The slots that a number of draws in a row give. -/
def IndexStream.draws (rehash : UInt64 → UInt64) : Nat → IndexStream → List Slot
  | 0, _ => []
  | count + 1, s => (s.next rehash).1 :: draws rehash count (s.next rehash).2

section ClosedForm

open IndexStream (atDepth draws sentinel)

variable (rehash : UInt64 → UInt64) (hash : UInt64)

/-- The draws from a depth on are those of the depths from there on. -/
theorem draws_atDepth (start count : Nat) :
    draws rehash (count + 1) (atDepth rehash hash start) =
      draws rehash count (atDepth rehash hash start) ++
        [((atDepth rehash hash (start + count)).next rehash).1] := by
  induction count generalizing start with
  | zero => rfl
  | succ count ih =>
    have hrest := ih (start + 1)
    rw [IndexStream.atDepth_succ, Nat.add_right_comm, Nat.add_assoc] at hrest
    rw [draws, hrest]
    rfl

theorem toNat_shiftRight_ofNat (w : UInt64) {n : Nat} (hn : n < 64) :
    (w >>> UInt64.ofNat n).toNat = w.toNat / 2 ^ n := by
  have hword : (UInt64.ofNat n).toNat = n := by
    rw [UInt64.toNat_ofNat']
    omega
  rw [UInt64.toNat_shiftRight, hword, Nat.mod_eq_of_lt hn, Nat.shiftRight_eq_div_pow]

/-- The code that a slot is drawn from: what is left of the round's hash, and the sentinel right
    above it. -/
theorem refill_code_eq (round : Nat) {i : Nat} (hi : i < slotsPerRound) :
    ((atDepth rehash hash (slotsPerRound * round + i)).refill rehash).code =
      sentinel >>> UInt64.ofNat (5 * i) |||
        sourceHash rehash hash round >>> UInt64.ofNat (1 + 5 * i) := by
  apply UInt64.toNat_inj.mp
  have hcode := toNat_refill rehash hash round hi
  have hword := (sourceHash rehash hash round).toNat_lt
  generalize sourceHash rehash hash round = source at hcode hword ⊢
  have hbound : 5 * i < 63 := by
    rw [slotsPerRound] at hi
    omega
  have hpow : 32 ^ i = 2 ^ (5 * i) := (Nat.pow_mul 2 5 i).symm
  have hsplit : 2 ^ 63 = 2 ^ (5 * i) * 2 ^ (63 - 5 * i) := by
    rw [← Nat.pow_add, Nat.add_sub_cancel' (Nat.le_of_lt hbound)]
  have hbits : source.toNat / 2 ^ (1 + 5 * i) = source.toNat / 2 / 2 ^ (5 * i) := by
    rw [Nat.pow_add, Nat.pow_one, Nat.div_div_eq_div_mul]
  have hlow : source.toNat / 2 ^ (1 + 5 * i) < 2 ^ (63 - 5 * i) := by
    rw [hbits, Nat.div_lt_iff_lt_mul (Nat.two_pow_pos _), Nat.mul_comm, ← hsplit]
    omega
  have hsentinel : sentinel.toNat / 2 ^ (5 * i) = 2 ^ (63 - 5 * i) := by
    have hvalue : sentinel.toNat = 2 ^ 63 := rfl
    rw [hvalue, hsplit, Nat.mul_div_cancel_left _ (Nat.two_pow_pos _)]
  have hor := Nat.two_pow_add_eq_or_of_lt hlow 1
  calc ((atDepth rehash hash (slotsPerRound * round + i)).refill rehash).code.toNat
    _ = 2 ^ (63 - 5 * i) + source.toNat / 2 ^ (1 + 5 * i) := by
        rw [hcode, hpow, hsplit, Nat.mul_add_div (Nat.two_pow_pos _), hbits]
    _ = 2 ^ (63 - 5 * i) ||| source.toNat / 2 ^ (1 + 5 * i) := by simpa using hor
    _ = _ := by
        rw [UInt64.toNat_or, toNat_shiftRight_ofNat _ (by omega), hsentinel,
          toNat_shiftRight_ofNat _ (by omega)]

/-- The sentinel is never among the five bits of a slot. -/
theorem sentinel_and_mask {i : Nat} (hi : i < slotsPerRound) :
    sentinel >>> UInt64.ofNat (5 * i) &&& 31 = 0 := by
  decide +revert

theorem slotOf_or {above : UInt64} (h : above &&& 31 = 0) (code : UInt64) :
    IndexStream.slotOf (above ||| code) = IndexStream.slotOf code := by
  have hword : above.toNat &&& 31 = 0 := congrArg UInt64.toNat h
  apply Fin.ext
  simp [IndexStream.slotOf, Nat.and_or_distrib_right, hword]

/-- The slot that is drawn at a depth: five bits of the round's hash. -/
theorem next_eq_slotOf (round : Nat) {i : Nat} (hi : i < slotsPerRound) :
    ((atDepth rehash hash (slotsPerRound * round + i)).next rehash).1 =
      IndexStream.slotOf (sourceHash rehash hash round >>> UInt64.ofNat (1 + 5 * i)) := by
  have hcode := refill_code_eq rehash hash round hi
  rw [IndexStream.next, hcode]
  exact slotOf_or (sentinel_and_mask hi) _

end ClosedForm

open IndexStream (atDepth draws sentinel) in
/-- **The stream of a key in closed form.**  At every depth the slot is five bits of the hash of
    the depth's round, whether the stream is put to the depth or all the slots before are drawn.
    The code it is drawn from is what is left of that hash, below a sentinel that is no part of
    the slot.  The stream is refilled before the depths 12, 24, 36 and so on and at no other one,
    and its code never vanishes. -/
theorem stream_closed_form (k : κ) (hash : UInt64) (depth : Nat) :
    let rehash := (hashSeeded · k)
    let stream := atDepth rehash hash depth
    let source := sourceHash rehash hash (depth / slotsPerRound)
    let used := 5 * (depth % slotsPerRound)
    (stream.next rehash).1.val = (source >>> UInt64.ofNat (1 + used) &&& 31).toNat ∧
      (draws rehash (depth + 1) (.ofHash hash)).getLast? = some (stream.next rehash).1 ∧
      (stream.refill rehash).code =
        sentinel >>> UInt64.ofNat used ||| source >>> UInt64.ofNat (1 + used) ∧
      sentinel >>> UInt64.ofNat used &&& 31 = 0 ∧
      (stream.code < 32 ↔ 0 < depth ∧ depth % slotsPerRound = 0) ∧
      stream.code ≠ 0 ∧ (stream.refill rehash).code ≠ 0 := by
  intro rehash stream source used
  have hi : depth % slotsPerRound < slotsPerRound := Nat.mod_lt _ (by decide)
  have hdepth : slotsPerRound * (depth / slotsPerRound) + depth % slotsPerRound = depth :=
    Nat.div_add_mod depth slotsPerRound
  have hslot := next_eq_slotOf rehash hash (depth / slotsPerRound) hi
  have hcode := refill_code_eq rehash hash (depth / slotsPerRound) hi
  have hfull := toNat_refill rehash hash (depth / slotsPerRound) hi
  have hleft := le_code hi ((sourceHash rehash hash (depth / slotsPerRound)).toNat / 2)
  rw [hdepth] at hslot hcode hfull
  obtain ⟨hlow, hrefilled⟩ := code_bounds rehash hash depth
  have hne : ∀ code : UInt64, 8 ≤ code.toNat → code ≠ 0 := by
    rintro code h rfl
    exact absurd h (by decide)
  refine ⟨congrArg Fin.val hslot, ?_, hcode, sentinel_and_mask hi, ?_, hne _ hlow, hne _ ?_⟩
  · have hdrawn := draws_atDepth rehash hash 0 depth
    rw [Nat.zero_add] at hdrawn
    rw [← IndexStream.atDepth_zero rehash, hdrawn]
    apply List.getLast?_concat
  · rw [← hrefilled, UInt64.lt_iff_toNat_lt]
    rfl
  · rw [hfull]
    exact Nat.le_trans (by decide) hleft

end TrieCollections
