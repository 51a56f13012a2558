/-
  TrieCollections/Proofs/PackedSlots.lean
  =======================================
  **The packed list is the slots in order.**  The contents of an exact array are
  listed in slot order and nothing else is in the list (`children_eq_filterMap`).
  What an operation does to the list can therefore be read off what it does to the
  slots: two exact arrays that differ in one slot at most have lists that differ in
  the place of that slot only, between a common front and a common back
  (`children_split`).  No place has to be computed for that.
-/
import Mathlib.Data.List.Basic
import TrieCollections.Trie.Sparse

namespace TrieCollections

namespace Sparse

variable {β : Type}

/-! ### The list of contents -/

theorem take_children (s : Sparse β) {n : Nat} (hn : n ≤ 32) :
    s.children.take (onesBelow s.bitmap n) = ((List.finRange 32).take n).filterMap s.get? := by
  induction n with
  | zero => simp [onesBelow]
  | succ n ih =>
    have hlt : n < 32 := hn
    have hslot : (List.finRange 32)[n]? = some ⟨n, hlt⟩ := by
      rw [List.getElem?_eq_getElem (by simpa using hlt)]
      simp
    rw [List.take_add_one, hslot, List.filterMap_append, ← ih (Nat.le_of_lt hlt), onesBelow]
    have hget : s.get? ⟨n, hlt⟩ =
        if s.bitmap.getLsbD n then s.children[onesBelow s.bitmap n]? else none := by
      rw [get?, has, position_eq]
    rcases hb : s.bitmap.getLsbD n with _ | _
    · rw [hb] at hget
      simp [hget]
    · rw [hb] at hget
      rw [Bool.toNat_true, List.take_add_one]
      congr 1
      rcases hx : s.children[onesBelow s.bitmap n]? with _ | x <;> simp [hget, hx]

/-- **The contents of an exact array are those of its slots, in slot order.** -/
theorem children_eq_filterMap {s : Sparse β} (hs : s.Exact) :
    s.children = (List.finRange 32).filterMap s.get? := by
  have h := s.take_children (Nat.le_refl 32)
  rw [show onesBelow s.bitmap 32 = s.children.length from hs, List.take_length] at h
  rw [h, List.take_of_length_le (by simp)]

theorem mem_children_iff {s : Sparse β} (hs : s.Exact) {x : β} :
    x ∈ s.children ↔ ∃ i, s.get? i = some x := by
  rw [children_eq_filterMap hs, List.mem_filterMap]
  constructor
  · rintro ⟨i, -, hi⟩
    exact ⟨i, hi⟩
  · rintro ⟨i, hi⟩
    exact ⟨i, List.mem_finRange i, hi⟩

theorem isSome_get? {s : Sparse β} (hs : s.Exact) (i : Slot) : (s.get? i).isSome = s.has i := by
  unfold get?
  rcases hi : s.has i with _ | _
  · rfl
  · rw [if_pos rfl, List.getElem?_eq_getElem (position_lt hs hi)]
    rfl

theorem bitmap_eq_of_isSome {γ : Type} {s : Sparse β} {t : Sparse γ} (hs : s.Exact) (ht : t.Exact)
    (h : ∀ i, (s.get? i).isSome = (t.get? i).isSome) : s.bitmap = t.bitmap := by
  apply BitVec.eq_of_getLsbD_eq
  intro i hi
  have := h ⟨i, hi⟩
  rw [isSome_get? hs, isSome_get? ht] at this
  exact this

/-! ### Arrays that differ in one slot -/

theorem finRange_split (i : Slot) :
    ∃ front back : List Slot, List.finRange 32 = front ++ i :: back ∧ i ∉ front ∧ i ∉ back := by
  obtain ⟨front, back, h⟩ := List.append_of_mem (List.mem_finRange i)
  have hnodup := List.nodup_finRange 32
  rw [h, List.nodup_append, List.nodup_cons] at hnodup
  obtain ⟨-, ⟨hback, -⟩, hfront⟩ := hnodup
  exact ⟨front, back, h, fun hi => hfront i hi i List.mem_cons_self rfl, hback⟩

/-- **One slot of the list.**  Around the content of slot `i` stand the contents of
    the other slots, the same for all arrays that have those. -/
theorem children_split (s : Sparse β) (i : Slot) :
    ∃ front back : List β,
      (∀ x ∈ front ++ back, ∃ j, j ≠ i ∧ s.get? j = some x) ∧
      ∀ t : Sparse β, t.Exact → (∀ j, j ≠ i → t.get? j = s.get? j) →
        t.children = front ++ ((t.get? i).toList ++ back) := by
  obtain ⟨front, back, hslots, hfront, hback⟩ := finRange_split i
  refine ⟨front.filterMap s.get?, back.filterMap s.get?, ?_, ?_⟩
  · intro x hx
    rw [← List.filterMap_append, List.mem_filterMap] at hx
    obtain ⟨j, hj, hx⟩ := hx
    refine ⟨j, ?_, hx⟩
    rintro rfl
    rcases List.mem_append.mp hj with h | h
    · exact hfront h
    · exact hback h
  · intro t ht hsame
    have hside : ∀ js : List Slot, i ∉ js → js.filterMap t.get? = js.filterMap s.get? := by
      intro js hi
      apply List.filterMap_congr
      intro j hj
      exact hsame j fun e => hi (e ▸ hj)
    rw [children_eq_filterMap ht, hslots, List.filterMap_append, hside front hfront]
    congr 1
    rcases hx : t.get? i with _ | x
    · rw [List.filterMap_cons_none hx, hside back hback]
      rfl
    · rw [List.filterMap_cons_some hx, hside back hback]
      rfl

/-! ### An array with two contents -/

/-- One slot filled after the other: each holds its own content. -/
theorem get?_unit_populate {i j : Slot} (hij : i ≠ j) (x y : β) (l : Slot) :
    ((unit i x).populate j y).get? l =
      if l = j then some y else if l = i then some x else none := by
  rw [get?_populate (exact_unit i x), get?_unit]
  split
  · next hl => rw [hl, if_neg fun e => hij e.symm]; rfl
  · rfl

end Sparse

end TrieCollections
