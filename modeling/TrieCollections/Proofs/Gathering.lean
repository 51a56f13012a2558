/-
  TrieCollections/Proofs/Gathering.lean
  =====================================
  **Groups hold what was put into them.**  To group a list is to go through it once, and to
  put a part of each element into the group under the element's key (`gather`).  Groups are
  sets in a map whose keys are only known up to `==`, so one element finds the group of another
  by a lookup with its own key.

  Such a group does not depend on the elements of other keys: it is what its own elements would
  make, put into an empty set one after the other (`getD_gather`).  That is read off the element
  put in last, by induction from the end of the list.  So a group holds a part exactly when some
  element of an equal key gave an equal one (`contains_gather`).
-/
import TrieCollections.Proofs.CollectionLookups

namespace TrieCollections

variable {α κ β : Type} [BEq κ] [Hashed κ] [BEq β] [Hashed β]

namespace TrieMap

/-- The parts of a list's elements, in groups under the elements' keys. -/
def gather (key : α → κ) (part : α → β) (xs : List α) : TrieMap κ (TrieSet β) :=
  xs.foldl (fun groups x =>
    groups.insert (key x) ((groups.getD (key x) .empty).insert (part x))) .empty

theorem gather_concat (key : α → κ) (part : α → β) (xs : List α) (x : α) :
    gather key part (xs ++ [x]) =
      (gather key part xs).insert (key x)
        (((gather key part xs).getD (key x) .empty).insert (part x)) := by
  rw [gather, List.foldl_append]
  rfl

/-- The map holds well-formed sets under its keys. -/
abbrev Grouped (ok : κ → Prop) (okPart : β → Prop) (groups : TrieMap κ (TrieSet β)) : Prop :=
  groups.WellFormed ok fun group => group.trie.WellFormed okPart

variable {ok : κ → Prop} {okPart : β → Prop} (law : LawfulOn ok) (lawPart : LawfulOn okPart)
  {key : α → κ} {part : α → β} {xs : List α}

include law

theorem Grouped.group {groups : TrieMap κ (TrieSet β)} (h : groups.Grouped ok okPart) {k : κ}
    (hk : ok k) : (groups.getD k .empty).trie.WellFormed okPart :=
  h.getD law hk TrieSet.wellFormed_empty

/-- The groups come about by insertions, and the keys are the elements' own. -/
theorem reachable_gather (hkey : ∀ x ∈ xs, ok (key x)) (hpart : ∀ x ∈ xs, okPart (part x)) :
    (gather key part xs).WellFormed ok fun group => group.Reachable okPart := by
  induction xs using List.reverseRecOn with
  | nil => exact .empty
  | append_singleton xs x ih =>
    simp only [List.forall_mem_append, List.forall_mem_singleton] at hkey hpart
    have hgroups := ih hkey.1 hpart.1
    rw [gather_concat]
    exact hgroups.insert law hkey.2 ((hgroups.getD law hkey.2 .empty).insert hpart.2)

theorem wellFormed_gather (hkey : ∀ x ∈ xs, ok (key x)) :
    (gather key part xs).trie.WellFormed ok := by
  have hgroups : (gather key part xs).WellFormed ok fun group => group.Reachable fun _ => True :=
    reachable_gather law hkey fun _ _ => trivial
  exact hgroups.trie

/-- Each key of a group is the very key of some element. -/
theorem exists_of_mem_gather (hkey : ∀ x ∈ xs, ok (key x)) {e : κ × TrieSet β}
    (he : e ∈ (gather key part xs).toList) : ∃ x ∈ xs, e.1 = key x := by
  have hlaw : LawfulOn fun k => ok k ∧ ∃ x ∈ xs, k = key x := law.mono fun _ hk => hk.1
  have hgroups : (gather key part xs).trie.WellFormed fun k => ok k ∧ ∃ x ∈ xs, k = key x :=
    wellFormed_gather hlaw fun x hx => ⟨hkey x hx, x, hx, rfl⟩
  exact (lawful_of_mem hgroups he).2

/-- There is a group under a key when some element has that key. -/
theorem contains_gather_iff (hkey : ∀ x ∈ xs, ok (key x)) {k : κ} (hk : ok k) :
    (gather key part xs).contains k = true ↔ ∃ x ∈ xs, (k == key x) = true := by
  induction xs using List.reverseRecOn with
  | nil => simp [gather, contains]
  | append_singleton xs x ih =>
    simp only [List.forall_mem_append, List.forall_mem_singleton] at hkey
    have hgroups : (gather key part xs).trie.WellFormed ok := wellFormed_gather law hkey.1
    rw [gather_concat, contains_insert law hgroups hkey.2 hk, Bool.or_eq_true, ih hkey.1]
    simp [or_and_right, exists_or, or_comm]

/-- **A group is made by its own elements**: it is the set of their parts, as if these had been put
    into an empty set, and the other elements leave no trace in it. -/
theorem getD_gather (hkey : ∀ x ∈ xs, ok (key x)) {k : κ} (hk : ok k) :
    (gather key part xs).getD k .empty = .ofList ((xs.filter (k == key ·)).map part) := by
  induction xs using List.reverseRecOn with
  | nil => rfl
  | append_singleton xs x ih =>
    simp only [List.forall_mem_append, List.forall_mem_singleton] at hkey
    have hgroups : (gather key part xs).trie.WellFormed ok := wellFormed_gather law hkey.1
    rw [gather_concat, getD_insert law hgroups hkey.2 hk, List.filter_append]
    by_cases hkx : (k == key x) = true
    · have hlast : [x].filter (k == key ·) = [x] := by simp [hkx]
      rw [if_pos hkx, ← getD_congr law hgroups hk hkey.2 hkx .empty, ih hkey.1, hlast,
        List.map_append]
      exact (List.foldl_concat ..).symm
    · have hlast : [x].filter (k == key ·) = [] := by simp [hkx]
      rw [if_neg hkx, ih hkey.1, hlast, List.append_nil]

include lawPart

theorem grouped_gather (hkey : ∀ x ∈ xs, ok (key x)) (hpart : ∀ x ∈ xs, okPart (part x)) :
    (gather key part xs).Grouped ok okPart := by
  have hgroups := reachable_gather law hkey hpart
  exact ⟨hgroups.trie, fun e he => (hgroups.values e he).wellFormed lawPart⟩

/-- **What a group holds**: the parts of the elements that have its key. -/
theorem contains_gather (hkey : ∀ x ∈ xs, ok (key x)) (hpart : ∀ x ∈ xs, okPart (part x)) {k : κ}
    (hk : ok k) {y : β} (hy : okPart y) :
    ((gather key part xs).getD k .empty).contains y = true ↔
      ∃ x ∈ xs, (k == key x) = true ∧ (y == part x) = true := by
  have hparts : ∀ z ∈ (xs.filter (k == key ·)).map part, okPart z :=
    List.forall_mem_map.mpr fun x hx => hpart x (List.mem_of_mem_filter hx)
  rw [getD_gather law hkey hk, TrieSet.contains_ofList lawPart hparts hy, List.any_map,
    List.any_eq_true]
  simp only [List.mem_filter, Function.comp, and_assoc]

end TrieMap

end TrieCollections
