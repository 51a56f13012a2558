/-
  TrieCollections/Proofs/NodePlaces.lean
  ======================================
  **Where nodes lie.**  A node lies in a trie a number of levels down (`Node.LiesAt`), and it is
  well-formed for the depth at which it lies (`Node.WellFormed.of_liesAt`).  So no node lies below
  the full depth, and the lists of collisions lie exactly there.

  Two keys go the same way through a trie for as long as they take the same slots.  Down to there
  one node has both of them below it (`Node.WellFormed.exists_liesAt`).  If that is the full depth,
  the node can only be a list of collisions.  If they part before, it can only be a branch, and the
  two keys are below two of its slots (`Trie.Layered`).
-/
import TrieCollections.Proofs.SharedPaths

namespace TrieCollections

namespace Node

variable {ε κ : Type}

/-- A node lies below another one, so many levels down. -/
inductive LiesAt : Node ε → Nat → Node ε → Prop
  | here {node : Node ε} : LiesAt node 0 node
  | inSlot {kids : Sparse (Node ε)} {i : Slot} {kid node : Node ε} {levels : Nat}
      (slot : kids.get? i = some kid) (lies : LiesAt kid levels node) :
      LiesAt (branch kids) (levels + 1) node

namespace WellFormed

variable [BEq κ] [Hashed κ] [Keyed ε κ] {ok : κ → Prop} {node : Node ε} {depth : Nat}

/-- **A node is well-formed for the depth at which it lies.** -/
theorem of_liesAt {levels : Nat} {sub : Node ε} (h : node.WellFormed ok depth)
    (hlies : node.LiesAt levels sub) : sub.WellFormed ok (depth + levels) := by
  induction hlies generalizing depth with
  | here => exact h
  | @inSlot kids i kid sub levels slot lies ih =>
    cases h with
    | branch deep exact two below routed =>
      rw [← Nat.add_assoc, Nat.add_right_comm]
      exact ih (below i kid slot)

section Pairs

variable (law : LawfulOn ok) {p q : ε × UInt64} (hp : p ∈ node.entries) (hq : q ∈ node.entries)
  (hne : (Keyed.key p.1 == Keyed.key q.1) = false)

include law hp hq hne

/-- Two keys do not fit into a leaf. -/
theorem ne_leaf (h : node.WellFormed ok depth) (e : ε) (hash : UInt64) : node ≠ .leaf e hash := by
  rintro rfl
  have hok := (h.stored p hp).lawful
  rw [entries_leaf, List.mem_singleton] at hp hq
  rw [hq, ← hp, law.refl hok] at hne
  cases hne

/-- **Down to where two keys part, one node has both below it.**  By induction on the levels: above
    the full depth the node is a branch, and the keys are below one of its slots. -/
theorem exists_liesAt {levels : Nat} (h : node.WellFormed ok depth)
    (hle : depth + levels ≤ maxDepth)
    (hshare : ∀ d < levels, homeSlot (Keyed.key p.1) (depth + d) =
      homeSlot (Keyed.key q.1) (depth + d)) :
    ∃ sub, node.LiesAt levels sub ∧ p ∈ sub.entries ∧ q ∈ sub.entries := by
  induction levels generalizing node depth with
  | zero => exact ⟨node, .here, hp, hq⟩
  | succ levels ih =>
    have hleaf := h.ne_leaf law hp hq hne
    cases h with
    | leaf => exact absurd rfl (hleaf _ _)
    | collision => omega
    | @branch _ kids deep exact two below routed =>
      obtain ⟨i, kid, hi, hpk⟩ := (mem_entries_branch exact).mp hp
      obtain ⟨j, kid', hj, hqk⟩ := (mem_entries_branch exact).mp hq
      have hslot := hshare 0 (Nat.succ_pos levels)
      rw [Nat.add_zero, routed i kid hi p hpk, routed j kid' hj q hqk] at hslot
      obtain rfl := hslot
      obtain rfl := Option.some.inj (hi.symm.trans hj)
      have hrest : ∀ d < levels, homeSlot (Keyed.key p.1) (depth + 1 + d) =
          homeSlot (Keyed.key q.1) (depth + 1 + d) := by
        intro d hd
        have hnext := hshare (d + 1) (Nat.succ_lt_succ hd)
        rwa [← Nat.add_assoc, Nat.add_right_comm] at hnext
      obtain ⟨sub, hlies, hps, hqs⟩ := ih hpk hqk (below i kid hi) (by omega) hrest
      exact ⟨sub, .inSlot hi hlies, hps, hqs⟩

/-- At the full depth only a list has room for two keys. -/
theorem eq_collision (h : node.WellFormed ok maxDepth) :
    ∃ es, node = .collision es ∧ p ∈ es ∧ q ∈ es := by
  have hleaf := h.ne_leaf law hp hq hne
  cases h with
  | leaf => exact absurd rfl (hleaf _ _)
  | @collision es two stored distinct =>
    rw [entries_collision] at hp hq
    exact ⟨es, rfl, hp, hq⟩
  | branch deep => exact absurd deep (Nat.lt_irrefl _)

/-- Above the full depth only a branch has. -/
theorem eq_branch (h : node.WellFormed ok depth) (hdeep : depth < maxDepth) :
    ∃ kids, node = .branch kids := by
  have hleaf := h.ne_leaf law hp hq hne
  cases h with
  | leaf => exact absurd rfl (hleaf _ _)
  | collision => exact absurd hdeep (Nat.lt_irrefl _)
  | @branch _ kids => exact ⟨kids, rfl⟩

end Pairs

end WellFormed

end Node

namespace Trie

variable {ε κ : Type}

/-- A node lies in a trie, so many levels down. -/
def LiesAt (t : Trie ε) (depth : Nat) (node : Node ε) : Prop :=
  ∃ root, t.root = some root ∧ root.LiesAt depth node

variable [BEq κ] [Hashed κ] [Keyed ε κ]

/-- How deep the nodes of a trie lie, and at which of them its keys part. -/
structure Layered (t : Trie ε) : Prop where
  /-- No node lies below the full depth. -/
  within : ∀ depth node, t.LiesAt depth node → depth ≤ maxDepth
  /-- Lists of collisions lie at the full depth only. -/
  lists : ∀ depth es, t.LiesAt depth (.collision es) → depth = maxDepth
  /-- Different keys that take the same slots all the way are in one list. -/
  together : ∀ p ∈ t.entries, ∀ q ∈ t.entries, (Keyed.key p.1 == Keyed.key q.1) = false →
    SharePath (Keyed.key p.1) (Keyed.key q.1) →
    ∃ es, t.LiesAt maxDepth (.collision es) ∧ p ∈ es ∧ q ∈ es
  /-- Keys that first take different slots at a depth are below two slots of one branch there. -/
  apart : ∀ p ∈ t.entries, ∀ q ∈ t.entries, ∀ depth < maxDepth,
    (∀ d < depth, homeSlot (Keyed.key p.1) d = homeSlot (Keyed.key q.1) d) →
    homeSlot (Keyed.key p.1) depth ≠ homeSlot (Keyed.key q.1) depth →
    ∃ kids kid kid', t.LiesAt depth (.branch kids) ∧
      kids.get? (homeSlot (Keyed.key p.1) depth) = some kid ∧ p ∈ kid.entries ∧
      kids.get? (homeSlot (Keyed.key q.1) depth) = some kid' ∧ q ∈ kid'.entries

namespace WellFormed

variable {ok : κ → Prop} {t : Trie ε} (h : t.WellFormed ok)

include h

theorem of_liesAt {depth : Nat} {node : Node ε} (hlies : t.LiesAt depth node) :
    node.WellFormed ok depth := by
  obtain ⟨root, hroot, hlies⟩ := hlies
  have hnode := (h.nodes root hroot).of_liesAt hlies
  rwa [Nat.zero_add] at hnode

theorem exists_liesAt (law : LawfulOn ok) {p q : ε × UInt64} (hp : p ∈ t.entries)
    (hq : q ∈ t.entries) (hne : (Keyed.key p.1 == Keyed.key q.1) = false) {depth : Nat}
    (hle : depth ≤ maxDepth)
    (hshare : ∀ d < depth, homeSlot (Keyed.key p.1) d = homeSlot (Keyed.key q.1) d) :
    ∃ node, t.LiesAt depth node ∧ p ∈ node.entries ∧ q ∈ node.entries := by
  rw [entries_eq] at hp hq
  rcases hroot : t.root with _ | root
  · rw [hroot] at hp
    exact absurd hp List.not_mem_nil
  · rw [hroot, Node.entriesOf_some] at hp hq
    have hle' : 0 + depth ≤ maxDepth := by rwa [Nat.zero_add]
    obtain ⟨node, hlies, hmem⟩ :=
      (h.nodes root hroot).exists_liesAt law hp hq hne hle' (by simpa using hshare)
    exact ⟨node, ⟨root, hroot, hlies⟩, hmem⟩

/-- **A well-formed trie is layered.** -/
theorem layered (law : LawfulOn ok) : t.Layered where
  within depth node hlies := (h.of_liesAt hlies).le_maxDepth
  lists depth es hlies := by
    cases h.of_liesAt hlies
    rfl
  together p hp q hq hne hshare := by
    obtain ⟨node, hlies, hpn, hqn⟩ := h.exists_liesAt law hp hq hne (Nat.le_refl _) hshare
    obtain ⟨es, rfl, hmem⟩ := (h.of_liesAt hlies).eq_collision law hpn hqn hne
    exact ⟨es, hlies, hmem⟩
  apart p hp q hq depth hdepth hshare hslots := by
    have hne : (Keyed.key p.1 == Keyed.key q.1) = false := by
      rw [Bool.eq_false_iff]
      intro heq
      exact hslots (homeSlot_congr law (h.lawful p hp) (h.lawful q hq) heq depth)
    obtain ⟨node, hlies, hpn, hqn⟩ :=
      h.exists_liesAt law hp hq hne (Nat.le_of_lt hdepth) hshare
    have hnode := h.of_liesAt hlies
    obtain ⟨kids, rfl⟩ := hnode.eq_branch law hpn hqn hne hdepth
    obtain ⟨kid, hkid, hpk⟩ := hnode.mem_slot hpn
    obtain ⟨kid', hkid', hqk⟩ := hnode.mem_slot hqn
    exact ⟨kids, kid, kid', hlies, hkid, hpk, hkid', hqk⟩

end WellFormed

end Trie

end TrieCollections
