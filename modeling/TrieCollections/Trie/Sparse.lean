/-
  TrieCollections/Trie/Sparse.lean
  ================================
  **A sparse array of 32 slots.**  A bitmap tells which slots are populated, and
  the contents of those slots are packed in a list, in slot order.  A slot's place
  in that list is the number of populated slots below it, which is the number of
  ones in the part of the bitmap below the slot's bit.

  An array is *exact* when its bitmap has as many ones as there are contents.  On
  exact arrays the operations do to a slot what their names say and leave every
  other slot alone: `get?_unit`, `get?_populate`, `get?_replace`, `get?_erase`.
-/
import TrieCollections.Hashing.IndexStream

namespace TrieCollections

/-- Contents for some of 32 slots: which slots, and their contents in slot order. -/
structure Sparse (β : Type) where
  bitmap : BitVec 32
  children : List β

namespace Sparse

/-! ### Counting the ones of a bitmap -/

/-- The number of ones among the `n` lowest bits. -/
def onesBelow (b : BitVec 32) : Nat → Nat
  | 0 => 0
  | n + 1 => onesBelow b n + (b.getLsbD n).toNat

def ones (b : BitVec 32) : Nat := onesBelow b 32

def bit (i : Slot) : BitVec 32 := BitVec.twoPow 32 i

/-- The bitmap with ones at all slots below the given one. -/
def below (i : Slot) : BitVec 32 := bit i - 1

variable {β : Type}

/-! ### Operations -/

def unit (i : Slot) (x : β) : Sparse β := ⟨bit i, [x]⟩

/-- The slot is populated. -/
def has (s : Sparse β) (i : Slot) : Bool := s.bitmap.getLsbD i

/-- Where the content of a slot lives, or would live, in the packed list. -/
def position (s : Sparse β) (i : Slot) : Nat := ones (s.bitmap &&& below i)

def get? (s : Sparse β) (i : Slot) : Option β :=
  if s.has i then s.children[s.position i]? else none

/-- Fill a vacant slot; a populated one keeps what it holds. -/
def populate (s : Sparse β) (i : Slot) (x : β) : Sparse β :=
  if s.has i then s else ⟨s.bitmap ||| bit i, s.children.insertIdx (s.position i) x⟩

/-- Exchange the content of a populated slot; a vacant one stays vacant. -/
def replace (s : Sparse β) (i : Slot) (x : β) : Sparse β :=
  if s.has i then ⟨s.bitmap, s.children.set (s.position i) x⟩ else s

def erase (s : Sparse β) (i : Slot) : Sparse β :=
  if s.has i then ⟨s.bitmap &&& ~~~bit i, s.children.eraseIdx (s.position i)⟩ else s

/-- The bitmap has as many ones as there are contents. -/
def Exact (s : Sparse β) : Prop := ones s.bitmap = s.children.length

instance (s : Sparse β) : Decidable s.Exact := inferInstanceAs (Decidable (_ = _))

/-! ### What a slot holds is part of the array -/

theorem mem_children_of_get? {s : Sparse β} {i : Slot} {x : β} (h : s.get? i = some x) :
    x ∈ s.children := by
  unfold get? at h
  split at h
  · exact List.mem_of_getElem? h
  · exact absurd h (by simp)

theorem sizeOf_lt_of_get? [SizeOf β] {s : Sparse β} {i : Slot} {x : β} (h : s.get? i = some x) :
    sizeOf x < sizeOf s := by
  have hx := List.sizeOf_lt_of_mem (mem_children_of_get? h)
  cases s
  simp only [Sparse.mk.sizeOf_spec] at *
  omega

/-! ### Places are counts of ones -/

theorem getLsbD_bit (i : Slot) (n : Nat) : (bit i).getLsbD n = decide (n = i) := by
  have := i.isLt
  simp only [bit, BitVec.getLsbD_twoPow]
  rcases Nat.decEq n i with h | h
  · have h' : ¬ (i : Nat) = n := fun e => h e.symm
    simp [h, h']
  · subst h
    simp [this]

theorem getLsbD_below (i : Slot) (n : Nat) : (below i).getLsbD n = decide (n < i) := by
  have hi := i.isLt
  have hpos : 0 < 2 ^ (i : Nat) := Nat.two_pow_pos _
  have hlt : 2 ^ (i : Nat) < 2 ^ 32 := Nat.pow_lt_pow_right (by decide) hi
  have hval : (below i).toNat = 2 ^ (i : Nat) - 1 := by
    rw [below, bit, BitVec.toNat_sub, BitVec.toNat_twoPow_of_lt hi,
      show (1 : BitVec 32).toNat = 1 from rfl]
    omega
  rw [← BitVec.testBit_toNat, hval, Nat.testBit_two_pow_sub_one]

theorem onesBelow_le (b : BitVec 32) {n m : Nat} (h : n ≤ m) : onesBelow b n ≤ onesBelow b m := by
  induction m with
  | zero =>
    obtain rfl := Nat.le_zero.mp h
    exact Nat.le_refl _
  | succ m ih =>
    rcases Nat.lt_or_eq_of_le h with h | rfl
    · exact Nat.le_trans (ih (Nat.le_of_lt_succ h)) (Nat.le_add_right _ _)
    · exact Nat.le_refl _

/-- Masking a bitmap counts what lies below the mask's end. -/
theorem ones_and_below (b : BitVec 32) (i : Slot) : ones (b &&& below i) = onesBelow b i := by
  have key : ∀ n, onesBelow (b &&& below i) n = onesBelow b (min n i) := by
    intro n
    induction n with
    | zero => simp [onesBelow]
    | succ n ih =>
      rw [onesBelow, ih, BitVec.getLsbD_and, getLsbD_below]
      rcases Nat.lt_or_ge n i with h | h
      · rw [Nat.min_eq_left (Nat.le_of_lt h), Nat.min_eq_left h, onesBelow]
        simp [h]
      · rw [Nat.min_eq_right h, Nat.min_eq_right (Nat.le_succ_of_le h)]
        simp [Nat.not_lt.mpr h]
  rw [ones, key, Nat.min_eq_right (Nat.le_of_lt i.isLt)]

theorem position_eq (s : Sparse β) (i : Slot) : s.position i = onesBelow s.bitmap i :=
  ones_and_below s.bitmap i

theorem onesBelow_bit (i : Slot) (n : Nat) : onesBelow (bit i) n = if i < n then 1 else 0 := by
  induction n with
  | zero => simp [onesBelow]
  | succ n ih =>
    rw [onesBelow, ih, getLsbD_bit]
    rcases Nat.lt_trichotomy n i with hn | hn | hn
    · rw [if_neg (by omega), if_neg (by omega), decide_eq_false (by omega)]
      rfl
    · rw [if_neg (by omega), if_pos (by omega), decide_eq_true hn]
      rfl
    · rw [if_pos hn, if_pos (by omega), decide_eq_false (by omega)]
      rfl

/-- Setting a vacant bit adds one to every count that passes it. -/
theorem onesBelow_or_bit {b : BitVec 32} {i : Slot} (h : b.getLsbD i = false) (n : Nat) :
    onesBelow (b ||| bit i) n = onesBelow b n + if i < n then 1 else 0 := by
  induction n with
  | zero => simp [onesBelow]
  | succ n ih =>
    rw [onesBelow, onesBelow, ih, BitVec.getLsbD_or, getLsbD_bit]
    rcases Nat.lt_trichotomy n i with hn | hn | hn
    · have h₁ : ¬ (i : Nat) < n := by omega
      have h₂ : ¬ (i : Nat) < n + 1 := by omega
      have h₃ : ¬ n = i := by omega
      simp [h₁, h₂, h₃]
    · rw [hn, h, if_neg (Nat.lt_irrefl _), if_pos (Nat.lt_succ_self _)]
      simp
    · have h₁ : (i : Nat) < n + 1 := by omega
      have h₃ : ¬ n = i := by omega
      simp [hn, h₁, h₃]
      omega

/-- Clearing a set bit takes one from every count that passes it. -/
theorem onesBelow_and_not_bit {b : BitVec 32} {i : Slot} (h : b.getLsbD i = true) (n : Nat) :
    onesBelow (b &&& ~~~bit i) n + (if i < n then 1 else 0) = onesBelow b n := by
  induction n with
  | zero => simp [onesBelow]
  | succ n ih =>
    rw [onesBelow, onesBelow, ← ih, BitVec.getLsbD_and, BitVec.getLsbD_not, getLsbD_bit]
    have hi := i.isLt
    rcases Nat.lt_trichotomy n i with hn | hn | hn
    · have h₁ : ¬ (i : Nat) < n := by omega
      have h₂ : ¬ (i : Nat) < n + 1 := by omega
      have h₃ : ¬ n = i := by omega
      have h₄ : n < 32 := by omega
      simp [h₁, h₂, h₃, h₄]
    · rw [hn, h, if_neg (Nat.lt_irrefl _), if_pos (Nat.lt_succ_self _)]
      simp
    · have h₁ : (i : Nat) < n + 1 := by omega
      have h₃ : ¬ n = i := by omega
      rcases Nat.lt_or_ge n 32 with h₄ | h₄
      · simp [hn, h₁, h₃, h₄]; omega
      · simp [hn, h₁, h₃, BitVec.getLsbD_of_ge _ _ h₄]

theorem onesBelow_succ_of_set {b : BitVec 32} {i : Nat} (h : b.getLsbD i = true) :
    onesBelow b (i + 1) = onesBelow b i + 1 := by simp [onesBelow, h]

/-- A populated slot's place lies inside the packed list. -/
theorem position_lt {s : Sparse β} (hs : s.Exact) {i : Slot} (h : s.has i = true) :
    s.position i < s.children.length := by
  have h₁ := onesBelow_le s.bitmap (Nat.succ_le_of_lt i.isLt)
  rw [onesBelow_succ_of_set h] at h₁
  rw [position_eq, ← (show ones s.bitmap = s.children.length from hs), ones]
  omega

/-- Every slot's place lies inside the packed list or at its end. -/
theorem position_le {s : Sparse β} (hs : s.Exact) (i : Slot) :
    s.position i ≤ s.children.length := by
  rw [position_eq, ← (show ones s.bitmap = s.children.length from hs), ones]
  exact onesBelow_le _ (Nat.le_of_lt i.isLt)

/-- Slots below a populated one have smaller places. -/
theorem position_lt_position {s : Sparse β} {i j : Slot} (h : s.has i = true) (hij : i < j) :
    s.position i < s.position j := by
  rw [position_eq, position_eq]
  have := onesBelow_le s.bitmap (Nat.succ_le_of_lt hij)
  rw [onesBelow_succ_of_set h] at this
  omega

/-! ### One equation per operation -/

theorem has_unit (i j : Slot) (x : β) : (unit i x).has j = decide (j = i) := by
  rw [has, unit, getLsbD_bit]; simp [Fin.ext_iff]

theorem has_populate (s : Sparse β) (i j : Slot) (x : β) :
    (s.populate i x).has j = (s.has j || decide (j = i)) := by
  unfold populate
  split
  · next h =>
    rcases Decidable.em (j = i) with e | e
    · subst e; simp [h]
    · simp [e]
  · simp only [has, BitVec.getLsbD_or, getLsbD_bit, Fin.ext_iff]

theorem has_replace (s : Sparse β) (i j : Slot) (x : β) : (s.replace i x).has j = s.has j := by
  unfold replace
  split <;> rfl

theorem has_erase (s : Sparse β) (i j : Slot) :
    (s.erase i).has j = (s.has j && !decide (j = i)) := by
  unfold erase
  split
  · have := j.isLt
    simp only [has, BitVec.getLsbD_and, BitVec.getLsbD_not, getLsbD_bit, Fin.ext_iff]
    simp [this]
  · next h =>
    rcases Decidable.em (j = i) with e | e
    · subst e; simpa using h
    · simp [e]

theorem exact_unit (i : Slot) (x : β) : (unit i x).Exact := by
  rw [Exact, ones, unit, onesBelow_bit, if_pos i.isLt]
  rfl

theorem exact_populate {s : Sparse β} (hs : s.Exact) (i : Slot) (x : β) :
    (s.populate i x).Exact := by
  unfold populate
  split
  · exact hs
  · next h =>
    have h' : s.bitmap.getLsbD i = false := by simpa [has] using h
    simp only [Exact, ones]
    rw [onesBelow_or_bit h', if_pos i.isLt, List.length_insertIdx_of_le_length (position_le hs i)]
    exact congrArg (· + 1) hs

theorem exact_replace {s : Sparse β} (hs : s.Exact) (i : Slot) (x : β) :
    (s.replace i x).Exact := by
  unfold replace
  split
  · simpa [Exact] using hs
  · exact hs

theorem exact_erase {s : Sparse β} (hs : s.Exact) (i : Slot) : (s.erase i).Exact := by
  unfold erase
  split
  · next h =>
    have h₁ := onesBelow_and_not_bit h 32
    have h₂ := position_lt hs h
    simp only [Exact, ones] at *
    rw [if_pos i.isLt, hs] at h₁
    rw [List.length_eraseIdx_of_lt h₂]
    omega
  · exact hs

theorem get?_unit (i j : Slot) (x : β) :
    (unit i x).get? j = if j = i then some x else none := by
  unfold get?
  rw [has_unit]
  rcases Decidable.em (j = i) with e | e
  · subst e
    have hp : position ⟨bit j, [x]⟩ j = 0 := by
      rw [position_eq (⟨bit j, [x]⟩ : Sparse β), onesBelow_bit, if_neg (Nat.lt_irrefl _)]
    simp [unit, hp]
  · simp [e]

theorem get?_populate {s : Sparse β} (hs : s.Exact) (i j : Slot) (x : β) :
    (s.populate i x).get? j = if j = i then some ((s.get? j).getD x) else s.get? j := by
  rcases hi : s.has i with _ | _
  · have hp : s.populate i x = ⟨s.bitmap ||| bit i, s.children.insertIdx (s.position i) x⟩ := by
      simp [populate, hi]
    have hpos : (s.populate i x).position j = s.position j + if i < j then 1 else 0 := by
      rw [position_eq, position_eq, hp]
      exact onesBelow_or_bit hi j
    have hle := position_le hs i
    rw [get?, has_populate, hpos]
    rcases Nat.lt_trichotomy i j with hij | hij | hij
    · have hne : ¬ j = i := by intro e; subst e; exact Nat.lt_irrefl _ hij
      have hlt : i < j := hij
      have hmono : s.position i ≤ s.position j := by
        rw [position_eq, position_eq]; exact onesBelow_le _ (Nat.le_of_lt hij)
      simp only [hne, decide_false, Bool.or_false, if_pos hlt, get?, hp]
      rw [List.getElem?_insertIdx_of_gt (by omega), Nat.add_sub_cancel]
      simp
    · have e : j = i := (Fin.ext hij).symm
      subst e
      simp [get?, hi, hp, List.getElem?_insertIdx_self, hle]
    · have hne : ¬ j = i := by intro e; subst e; exact Nat.lt_irrefl _ hij
      have hnlt : ¬ i < j := Nat.not_lt.mpr (Nat.le_of_lt hij)
      simp only [hne, decide_false, Bool.or_false, if_neg hnlt, Nat.add_zero, get?, hp]
      rcases hj : s.has j with _ | _
      · simp
      · have := position_lt_position hj (show j < i from hij)
        rw [List.getElem?_insertIdx_of_lt this]
        simp
  · have hp : s.populate i x = s := by simp [populate, hi]
    rw [hp]
    split
    · next e =>
      subst e
      have hlt := position_lt hs hi
      simp [get?, hi, hlt]
    · rfl

theorem get?_replace {s : Sparse β} (hs : s.Exact) (i j : Slot) (x : β) :
    (s.replace i x).get? j = if j = i then (s.get? j).map fun _ => x else s.get? j := by
  rcases hi : s.has i with _ | _
  · have hp : s.replace i x = s := by simp [replace, hi]
    rw [hp]
    split
    · next e => subst e; simp [get?, hi]
    · rfl
  · have hp : s.replace i x = ⟨s.bitmap, s.children.set (s.position i) x⟩ := by
      simp [replace, hi]
    have hpos : (s.replace i x).position j = s.position j := by
      rw [position_eq, position_eq, hp]
    have hlt := position_lt hs hi
    rw [get?, has_replace, hpos, hp]
    split
    · next hj =>
      split
      · next e => subst e; simp [get?, hi, hlt]
      · next e =>
        have hne : s.position i ≠ s.position j := by
          rcases Nat.lt_trichotomy i j with h | h | h
          · exact Nat.ne_of_lt (position_lt_position hi h)
          · exact absurd (Fin.ext h).symm e
          · exact (Nat.ne_of_lt (position_lt_position hj h)).symm
        simp [get?, hj, List.getElem?_set_ne hne]
    · next hj =>
      split <;> simp [get?, hj]

theorem get?_erase (s : Sparse β) (i j : Slot) :
    (s.erase i).get? j = if j = i then none else s.get? j := by
  rcases hi : s.has i with _ | _
  · have hp : s.erase i = s := by simp [erase, hi]
    rw [hp]
    split
    · next e => subst e; simp [get?, hi]
    · rfl
  · have hp : s.erase i = ⟨s.bitmap &&& ~~~bit i, s.children.eraseIdx (s.position i)⟩ := by
      simp [erase, hi]
    have hpos : (s.erase i).position j + (if i < j then 1 else 0) = s.position j := by
      rw [position_eq, position_eq, hp]
      exact onesBelow_and_not_bit hi j
    rw [get?, has_erase]
    rcases Nat.lt_trichotomy i j with hij | hij | hij
    · have hne : ¬ j = i := by intro e; subst e; exact Nat.lt_irrefl _ hij
      have hlt : i < j := hij
      have hlt' := position_lt_position hi hlt
      rw [if_pos hlt] at hpos
      simp only [hne, decide_false, Bool.not_false, Bool.and_true, if_false, get?]
      rcases hj : s.has j with _ | _
      · simp
      · rw [if_pos rfl, if_pos rfl, ← hpos, hp]
        rw [List.getElem?_eraseIdx_of_ge (by rw [hp] at hpos; omega)]
    · have e : j = i := (Fin.ext hij).symm
      subst e
      simp
    · have hne : ¬ j = i := by intro e; subst e; exact Nat.lt_irrefl _ hij
      have hnlt : ¬ i < j := Nat.not_lt.mpr (Nat.le_of_lt hij)
      rw [if_neg hnlt, Nat.add_zero] at hpos
      simp only [hne, decide_false, Bool.not_false, Bool.and_true, if_false, get?, hpos]
      rcases hj : s.has j with _ | _
      · simp
      · have := position_lt_position hj (show j < i from hij)
        rw [if_pos rfl, if_pos rfl, hp, List.getElem?_eraseIdx_of_lt this]

end Sparse

end TrieCollections
