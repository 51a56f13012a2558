/-
  TrieCollections/Proofs/Walks.lean
  =================================
  **A walk visits the entries in their order.**  What is still to come can be read off where
  the walk stands: the rest of the list of collisions, and then all that is below the nodes on
  the stack, the top first (`Walk.pending`).  A step hands out the first of these and leaves the
  others to come, however many nodes it passes on its way.

  A walk starts with all the entries of its trie to come.  So the member that a set gives when
  it is asked for any is the first one it lists, and it gives one unless it is empty.
-/
import TrieCollections.Proofs.NodeShape
import TrieCollections.TrieSet.Basic

namespace TrieCollections

variable {ε : Type}

namespace Walk

/-- The entries still to come. -/
def pending (w : Walk ε) : List (ε × UInt64) := w.chain ++ w.stack.flatten.flatMap Node.entries

theorem pending_start (t : Trie ε) : (start t).pending = t.entries := by
  rw [pending, start, Trie.entries]
  rcases t.root with _ | node
  · rfl
  · simp

/-- **A step hands out the next entry and leaves the rest.**  By induction along the steps that
    pass nodes without handing anything out: each of them unfolds the top of the stack, and what
    is to come stays the same list. -/
theorem pending_advance (remaining : Nat) (chain : List (ε × UInt64))
    (stack : List (List (Node ε))) :
    (Walk.mk remaining chain stack).pending =
      match advance remaining chain stack with
      | none => []
      | some (e, rest) => e :: rest.pending := by
  induction chain, stack using advance.induct with
  | case1 e chain stack => simp [advance, pending]
  | case2 => simp [advance, pending]
  | case3 stack ih =>
    rw [advance, ← ih]
    simp [pending]
  | case4 e h nodes stack => simp [advance, pending]
  | case5 es nodes stack ih =>
    rw [advance, ← ih]
    simp [pending]
  | case6 bitmap kids nodes stack ih =>
    rw [advance, ← ih]
    simp [pending, Node.entries_branch]

theorem pending_next? (w : Walk ε) :
    w.pending = match w.next? with
      | none => []
      | some (e, rest) => e :: rest.pending := pending_advance _ _ _

theorem head?_pending (w : Walk ε) : w.pending.head? = w.next?.map (·.1) := by
  rw [pending_next?]
  rcases w.next? with _ | ⟨e, rest⟩ <;> rfl

end Walk

namespace TrieSet

variable {α : Type} {s : TrieSet α}

/-- Any member is the first one. -/
theorem any?_eq_head? (s : TrieSet α) : s.any? = s.toList.head? := by
  have hfirst := s.walk.head?_pending
  rw [walk, Walk.pending_start] at hfirst
  rw [any?, walk, toList, List.head?_map, hfirst, Option.map_map]
  rfl

theorem toList_eq_nil_of_any? (h : s.any? = none) : s.toList = [] := by
  rw [any?_eq_head?] at h
  exact List.head?_eq_none_iff.mp h

theorem mem_of_any? {x : α} (h : s.any? = some x) : x ∈ s.toList := by
  rw [any?_eq_head?] at h
  exact List.mem_of_mem_head? h

end TrieSet

end TrieCollections
