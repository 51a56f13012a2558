/-
  TrieCollections/Proofs/SlotEdits.lean
  =====================================
  **An edit of one slot is seen in that slot only.**  A slot's place in the packed list is the
  number of populated slots below it, so whatever goes into the middle of the list or is taken out
  of it moves the places of all slots above.  None of this shows.  As long as an array is exact,
  its list is in step with its slots (`InStep`): every place that is read, filled or cleared is
  inside the list, and the list has the contents of the slots in slot order.  An operation on one
  slot gives this slot a new content, or none, and all others keep theirs (`Edited`).

  This says all about the result of an operation, because an exact array is determined by what its
  slots hold (`eq_of_get?_eq`).

  A slot can be populated before its content is known, with anything that stands for an empty
  content.  The place that was found for it is still its place afterwards (`position_populate`), so
  the content can be written there, and then nothing is left of what stood in for it
  (`edited_populate_replace`).
-/
import TrieCollections.Proofs.PackedSlots

namespace TrieCollections

namespace Sparse

variable {β : Type}

/-! ### The list in step with the slots -/

/-- The packed list fits the slots, as it must where places are found by counting. -/
structure InStep (s : Sparse β) : Prop where
  /-- There are as many contents as the bitmap has ones. -/
  exact : s.Exact
  /-- The place of a populated slot is inside the list, and its content is there. -/
  populated : ∀ i, s.has i = true →
    s.position i < s.children.length ∧ s.get? i = s.children[s.position i]?
  /-- A vacant slot has no content, and its place is one where a content can be put in. -/
  vacant : ∀ i, s.has i = false → s.get? i = none ∧ s.position i ≤ s.children.length
  /-- The list has the contents of the slots, in slot order. -/
  ordered : s.children = (List.finRange 32).filterMap s.get?

theorem Exact.inStep {s : Sparse β} (hs : s.Exact) : s.InStep where
  exact := hs
  populated i hi := ⟨position_lt hs hi, by simp [get?, hi]⟩
  vacant i hi := ⟨by simp [get?, hi], position_le hs i⟩
  ordered := children_eq_filterMap hs

/-- **An exact array is determined by what its slots hold.** -/
theorem eq_of_get?_eq {s t : Sparse β} (hs : s.Exact) (ht : t.Exact)
    (h : ∀ i, s.get? i = t.get? i) : s = t := by
  have hbitmap : s.bitmap = t.bitmap := bitmap_eq_of_isSome hs ht fun i => by simp [h i]
  have hchildren : s.children = t.children := by
    simp [children_eq_filterMap hs, children_eq_filterMap ht, funext h]
  cases s
  cases t
  simp_all

/-! ### One slot edited -/

/-- The array `t` is `s` with the given content in slot `i`, or with none there.  All other slots
    hold what they hold in `s`. -/
structure Edited (s : Sparse β) (i : Slot) (content : Option β) (t : Sparse β) : Prop where
  inStep : t.InStep
  here : t.get? i = content
  elsewhere : ∀ j, j ≠ i → t.get? j = s.get? j

namespace Edited

variable {s t u : Sparse β} {i : Slot} {content content' : Option β}

/-- There is only one such array. -/
theorem unique (ht : s.Edited i content t) (hu : s.Edited i content u) : t = u := by
  apply eq_of_get?_eq ht.inStep.exact hu.inStep.exact
  intro j
  by_cases hj : j = i
  · subst hj
    simp [ht.here, hu.here]
  · simp [ht.elsewhere j hj, hu.elsewhere j hj]

/-- Of two edits of one slot the second one counts. -/
theorem trans (ht : s.Edited i content t) (hu : t.Edited i content' u) : s.Edited i content' u where
  inStep := hu.inStep
  here := hu.here
  elsewhere j hj := by simp [hu.elsewhere j hj, ht.elsewhere j hj]

end Edited

theorem has_populate_self (s : Sparse β) (i : Slot) (x : β) : (s.populate i x).has i = true := by
  simp [has_populate]

/-- A slot's place counts the slots below it, so it does not matter whether the slot itself is
    populated. -/
theorem position_populate (s : Sparse β) (i : Slot) (x : β) :
    (s.populate i x).position i = s.position i := by
  by_cases hi : s.has i = true
  · simp [populate, hi]
  · have hvacant : s.bitmap.getLsbD i = false := by simpa [has] using hi
    simp [position_eq, populate, hi, onesBelow_or_bit hvacant]

section Operations

variable {s : Sparse β} (hs : s.Exact) (i : Slot)

include hs

theorem edited_populate (x : β) : s.Edited i (some ((s.get? i).getD x)) (s.populate i x) where
  inStep := (exact_populate hs i x).inStep
  here := by simp [get?_populate hs]
  elsewhere j hj := by simp [get?_populate hs, hj]

theorem edited_replace (hi : s.has i = true) (x : β) : s.Edited i (some x) (s.replace i x) where
  inStep := (exact_replace hs i x).inStep
  here := by
    obtain ⟨old, hold⟩ := Option.isSome_iff_exists.mp ((isSome_get? hs i).trans hi)
    simp [get?_replace hs, hold]
  elsewhere j hj := by simp [get?_replace hs, hj]

theorem edited_erase : s.Edited i none (s.erase i) where
  inStep := (exact_erase hs i).inStep
  here := by simp [get?_erase]
  elsewhere j hj := by simp [get?_erase, hj]

/-- A slot that was populated first and then given its content. -/
theorem edited_populate_replace (x y : β) :
    s.Edited i (some y) ((s.populate i x).replace i y) := by
  have hhas := has_populate_self s i x
  exact (edited_populate hs i x).trans (edited_replace (exact_populate hs i x) i hhas y)

/-- At the place found before the slot was populated stands what the slot holds now. -/
theorem getElem?_position_populate (x : β) :
    (s.populate i x).children[s.position i]? = some ((s.get? i).getD x) := by
  have hedited := edited_populate hs i x
  obtain ⟨-, hread⟩ := hedited.inStep.populated i (has_populate_self s i x)
  rw [← hedited.here, hread, position_populate]

end Operations

/-! ### The main statement -/

/-- **An edit reaches one slot.**  In an exact array every place that is counted out lies where it
    has to, and the packed list has the contents of the slots in slot order.  Populating slot `i`
    with `x` leaves a content that is there and puts `x` into a vacant slot.  What the slot then
    holds stands at the place that was counted out before, and any other content can be written
    there.  The content of a populated slot can also be replaced or erased.  Each time all other
    slots, populated or vacant, stay as they were, there are again as many contents as ones, and
    the list is in slot order.  The array that is left is the only one of which this is so. -/
theorem edits_reach_one_slot {s : Sparse β} (hs : s.Exact) (i : Slot) (x : β) :
    s.InStep ∧
      s.Edited i (some ((s.get? i).getD x)) (s.populate i x) ∧
      (s.populate i x).children[s.position i]? = some ((s.get? i).getD x) ∧
      (∀ y, s.Edited i (some y) ((s.populate i x).replace i y)) ∧
      (s.has i = true → s.Edited i (some x) (s.replace i x) ∧ s.Edited i none (s.erase i)) ∧
      ∀ content t u, s.Edited i content t → s.Edited i content u → t = u := by
  refine ⟨hs.inStep, edited_populate hs i x, getElem?_position_populate hs i x, ?written, ?held,
    fun _ _ _ ht hu => ht.unique hu⟩
  case written =>
    intro y
    exact edited_populate_replace hs i x y
  case held =>
    intro hi
    exact ⟨edited_replace hs i hi x, edited_erase hs i⟩

/-- Three slots are populated, the lowest and the highest one among them, and `none` stands in for
    a content.  A slot between two others is populated, and the one in the middle is erased. -/
theorem edits_reach_one_slot_between :
    let s : Sparse (Option Nat) := ⟨0x80000081, [some 10, some 17, some 41]⟩
    s.Exact ∧ s.InStep ∧
      s.Edited 30 (some none) (s.populate 30 none) ∧
      (s.populate 30 none).children = [some 10, some 17, none, some 41] ∧
      s.Edited 30 (some (some 40)) ((s.populate 30 none).replace 30 (some 40)) ∧
      s.Edited 7 (some (some 17)) (s.populate 7 none) ∧
      s.has 7 = true ∧ s.Edited 7 none (s.erase 7) ∧ (s.erase 7).children = [some 10, some 41] := by
  intro s
  have hs : s.Exact := by decide
  have hnone : s.get? 30 = none := by decide
  have hsome : s.get? 7 = some (some 17) := by decide
  have hhas : s.has 7 = true := by decide
  obtain ⟨hstep, hvacant, -, hwritten, -⟩ := edits_reach_one_slot hs 30 none
  obtain ⟨-, hkept, -, -, hheld, -⟩ := edits_reach_one_slot hs 7 none
  rw [hnone] at hvacant
  rw [hsome] at hkept
  exact ⟨hs, hstep, hvacant, by decide, hwritten (some 40), hkept, hhas, (hheld hhas).2, by decide⟩

end Sparse

end TrieCollections
