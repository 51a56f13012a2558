/-
  TrieCollections/Proofs/NodeShape.lean
  =====================================
  **Well-formed nodes.**  What every operation on nodes relies on and restores is one
  predicate, `Node.WellFormed`, of a node and the depth it stands at:

    * every entry is stored with the hash of its own key;
    * below a branch, every entry is in the slot that its own key takes at this depth;
    * a branch has at least two entries below it, and stands above the full depth;
    * a list of collisions stands at the full depth, has at least two entries, and no two
      of its keys are equal.

  That no two keys of a whole trie are equal is not part of it but follows: equal keys
  take equal slots, so they meet in one list (`WellFormed.distinct`).

  All three operations on a branch go to one slot.  `entries_around` says what that means
  for the entries: those of the slot's own node stand apart from the others, which take
  other slots and stay where they are whatever becomes of the slot.
-/
import TrieCollections.Proofs.EntryLists
import TrieCollections.Proofs.PackedSlots
import TrieCollections.Trie.Check

namespace TrieCollections

namespace Node

variable {ε κ : Type}

/-! ### Entries -/

def entriesOf (node? : Option (Node ε)) : List (ε × UInt64) := node?.toList.flatMap entries

@[simp] theorem entriesOf_none : entriesOf (none : Option (Node ε)) = [] := rfl

@[simp] theorem entriesOf_some (node : Node ε) : entriesOf (some node) = node.entries := by
  simp [entriesOf]

@[simp] theorem entries_leaf (e : ε) (hash : UInt64) : (leaf e hash).entries = [(e, hash)] := by
  rw [entries]

@[simp] theorem entries_collision (es : List (ε × UInt64)) : (collision es).entries = es := by
  rw [entries]

theorem mem_entries_branch {kids : Sparse (Node ε)} (hexact : kids.Exact) {p : ε × UInt64} :
    p ∈ (branch kids).entries ↔ ∃ i kid, kids.get? i = some kid ∧ p ∈ kid.entries := by
  rw [entries_branch, List.mem_flatMap]
  constructor
  · rintro ⟨kid, hkid, hp⟩
    obtain ⟨i, hi⟩ := (Sparse.mem_children_iff hexact).mp hkid
    exact ⟨i, kid, hi, hp⟩
  · rintro ⟨i, kid, hi, hp⟩
    exact ⟨kid, (Sparse.mem_children_iff hexact).mpr ⟨i, hi⟩, hp⟩

/-- **The entries around a slot.**  There are entries, all of them in other slots, that
    stand beside those of slot `i` in every array which agrees outside that slot. -/
theorem entries_around (kids : Sparse (Node ε)) (i : Slot) :
    ∃ others : List (ε × UInt64),
      (∀ p ∈ others, ∃ j kid, j ≠ i ∧ kids.get? j = some kid ∧ p ∈ kid.entries) ∧
      ∀ kids' : Sparse (Node ε), kids'.Exact → (∀ j, j ≠ i → kids'.get? j = kids.get? j) →
        (branch kids').entries.Perm (entriesOf (kids'.get? i) ++ others) := by
  obtain ⟨front, back, hside, hsplit⟩ := kids.children_split i
  refine ⟨front.flatMap entries ++ back.flatMap entries, ?_, ?_⟩
  · intro p hp
    rw [← List.flatMap_append, List.mem_flatMap] at hp
    obtain ⟨kid, hkid, hp⟩ := hp
    obtain ⟨j, hj, hget⟩ := hside kid hkid
    exact ⟨j, kid, hj, hget, hp⟩
  · intro kids' hexact hsame
    rw [entries_branch, hsplit kids' hexact hsame, List.flatMap_append, List.flatMap_append]
    exact List.perm_append_comm_assoc ..

/-! ### The predicate -/

variable [BEq κ] [Hashed κ] [Keyed ε κ]

/-- The node is as the operations keep it `depth` levels down, with keys that satisfy
    `ok`. -/
inductive WellFormed (ok : κ → Prop) : Nat → Node ε → Prop
  | leaf {depth : Nat} {e : ε} {hash : UInt64} (deep : depth ≤ maxDepth)
      (stored : Stored ok (e, hash)) : WellFormed ok depth (leaf e hash)
  | collision {es : List (ε × UInt64)} (two : 2 ≤ es.length) (stored : ∀ p ∈ es, Stored ok p)
      (distinct : DistinctKeys es) : WellFormed ok maxDepth (collision es)
  | branch {depth : Nat} {kids : Sparse (Node ε)} (deep : depth < maxDepth)
      (exact : kids.Exact) (two : 2 ≤ (branch kids).entries.length)
      (below : ∀ i kid, kids.get? i = some kid → WellFormed ok (depth + 1) kid)
      (routed : ∀ i kid, kids.get? i = some kid →
        ∀ p ∈ kid.entries, homeSlot (Keyed.key p.1) depth = i) :
      WellFormed ok depth (branch kids)

namespace WellFormed

variable {ok : κ → Prop} {depth : Nat} {node : Node ε}

theorem le_maxDepth (h : node.WellFormed ok depth) : depth ≤ maxDepth := by
  cases h with
  | leaf deep => exact deep
  | collision => exact Nat.le_refl _
  | branch deep => exact Nat.le_of_lt deep

theorem stored (h : node.WellFormed ok depth) : ∀ p ∈ node.entries, Stored ok p := by
  induction h with
  | leaf deep stored =>
    intro p hp
    rw [entries_leaf, List.mem_singleton] at hp
    exact hp ▸ stored
  | collision two stored distinct => rwa [entries_collision]
  | branch deep exact two below routed ih =>
    intro p hp
    obtain ⟨i, kid, hi, hp⟩ := (mem_entries_branch exact).mp hp
    exact ih i kid hi p hp

theorem length_pos (h : node.WellFormed ok depth) : 0 < node.entries.length := by
  cases h with
  | leaf => simp
  | collision two => rw [entries_collision]; omega
  | branch deep exact two => omega

theorem eq_leaf (h : node.WellFormed ok depth) (hone : node.entries.length = 1) :
    ∃ e hash, node = .leaf e hash := by
  cases h with
  | leaf => exact ⟨_, _, rfl⟩
  | collision two => rw [entries_collision] at hone; omega
  | branch deep exact two => omega

theorem leaf_up {e : ε} {hash : UInt64} (h : (Node.leaf e hash).WellFormed ok (depth + 1)) :
    (Node.leaf e hash).WellFormed ok depth := by
  cases h with
  | leaf deep stored => exact .leaf (Nat.le_of_succ_le deep) stored

variable (law : LawfulOn ok)

include law

/-- **No two entries of a well-formed node have equal keys.**  In one list of collisions
    that is so by definition; entries in two slots have keys with two slots. -/
theorem distinct (h : node.WellFormed ok depth) : DistinctKeys node.entries := by
  induction h with
  | leaf => rw [entries_leaf]; exact List.pairwise_singleton ..
  | collision two stored distinct => rwa [entries_collision]
  | @branch depth kids deep exact two below routed ih =>
    rw [entries_branch, DistinctKeys, List.pairwise_flatMap]
    constructor
    · intro kid hkid
      obtain ⟨i, hi⟩ := (Sparse.mem_children_iff exact).mp hkid
      exact ih i kid hi
    · rw [Sparse.children_eq_filterMap exact, List.pairwise_filterMap]
      apply (List.nodup_finRange 32).imp
      intro i j hij kid hi kid' hj p hp q hq
      have hsp := (below i kid hi).stored p hp
      have hsq := (below j kid' hj).stored q hq
      have hslot : homeSlot (Keyed.key p.1) depth ≠ homeSlot (Keyed.key q.1) depth := by
        rw [routed i kid hi p hp, routed j kid' hj q hq]
        exact hij
      constructor
      · exact Bool.eq_false_iff.mpr fun heq =>
          hslot (homeSlot_congr law hsp.lawful hsq.lawful heq depth)
      · exact Bool.eq_false_iff.mpr fun heq =>
          hslot (homeSlot_congr law hsq.lawful hsp.lawful heq depth).symm

/-- A key does not meet the entries of other slots. -/
theorem ne_of_slot_ne {kids : Sparse (Node ε)} (h : (Node.branch kids).WellFormed ok depth)
    {k : κ} (hk : ok k) {j : Slot} {kid : Node ε} (hget : kids.get? j = some kid)
    (hj : j ≠ homeSlot k depth) {p : ε × UInt64} (hp : p ∈ kid.entries) :
    (k == Keyed.key p.1) = false := by
  cases h with
  | branch deep exact two below routed =>
    apply Bool.eq_false_iff.mpr
    intro heq
    apply hj
    rw [← routed j kid hget p hp]
    exact (homeSlot_congr law hk ((below j kid hget).stored p hp).lawful heq depth).symm

end WellFormed

/-! ### Editing one slot of a branch -/

/-- When one slot of a branch is given a well-formed node whose entries belong there, or
    nothing, the contents of all slots are again as a branch needs them. -/
theorem WellFormed.edit {ok : κ → Prop} {depth : Nat} {kids kids' : Sparse (Node ε)} {i : Slot}
    (h : (Node.branch kids).WellFormed ok depth)
    (hsame : ∀ j, j ≠ i → kids'.get? j = kids.get? j)
    (hbelow : ∀ kid, kids'.get? i = some kid → kid.WellFormed ok (depth + 1))
    (hrouted : ∀ kid, kids'.get? i = some kid →
      ∀ p ∈ kid.entries, homeSlot (Keyed.key p.1) depth = i) :
    (∀ j kid, kids'.get? j = some kid → kid.WellFormed ok (depth + 1)) ∧
      ∀ j kid, kids'.get? j = some kid →
        ∀ p ∈ kid.entries, homeSlot (Keyed.key p.1) depth = j := by
  cases h with
  | branch deep exact two below routed =>
    constructor
    · intro j kid hget
      by_cases hj : j = i
      · subst hj
        exact hbelow kid hget
      · exact below j kid (hsame j hj ▸ hget)
    · intro j kid hget
      by_cases hj : j = i
      · subst hj
        exact hrouted kid hget
      · exact routed j kid (hsame j hj ▸ hget)

/-! ### The check of a node's shape -/

omit [BEq κ] in
theorem isSane_branch (depth : Nat) (kids : Sparse (Node ε)) :
    (branch kids).isSane depth =
      (decide kids.Exact && !kids.children.isEmpty
        && !(kids.children.length == 1 && kids.children.all isLeaf)
        && kids.children.all fun kid => kid.isSane (depth + 1)) := by
  cases kids
  rw [isSane, List.all_map]
  rfl

/-- **A well-formed node passes the check.** -/
theorem WellFormed.isSane {ok : κ → Prop} {depth : Nat} {node : Node ε}
    (h : node.WellFormed ok depth) : node.isSane depth = true := by
  induction h with
  | leaf deep stored => rw [Node.isSane]; exact beq_iff_eq.mpr stored.hash
  | collision two stored distinct => rw [Node.isSane]; simp [two]
  | @branch depth kids deep exact two below routed ih =>
    rw [entries_branch] at two
    have hkids : ∀ kid ∈ kids.children, kid.isSane (depth + 1) = true := by
      intro kid hkid
      obtain ⟨i, hi⟩ := (Sparse.mem_children_iff exact).mp hkid
      exact ih i kid hi
    have hempty : kids.children.isEmpty = false := by
      rw [List.isEmpty_eq_false_iff]
      intro hnil
      simp [hnil] at two
    have hlone : (kids.children.length == 1 && kids.children.all isLeaf) = false := by
      rcases hc : kids.children with _ | ⟨kid, _ | ⟨kid', rest⟩⟩
      · rfl
      · rw [hc] at two
        cases kid <;> simp_all [Node.isLeaf]
      · rfl
    rw [isSane_branch, hempty, hlone]
    simp [exact, List.all_eq_true.mpr hkids]

end Node

end TrieCollections
