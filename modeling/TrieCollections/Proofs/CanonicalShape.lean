/-
  TrieCollections/Proofs/CanonicalShape.lean
  ==========================================
  **The shape tells nothing but the keys.**  A trie has no choice: in which slot an entry
  stands is said by its key, and whether there is a branch at all is said by how many
  entries stand below it, since a branch has at least two and a leaf has one.  So two
  well-formed tries with the same keys have the same branches with the same bitmaps, and
  the same leaves in the same slots; only the order within a list of collisions is left
  open (`SameShape`).  By which edits they came about is not seen.

  The proof goes down both nodes at once.  It needs that the nodes of a slot have the same
  keys when the branches do, and that holds because an entry and its partner in the other
  branch take the same slot (`covers_slot`).

  Where there are no collisions, the order in which the entries are listed goes with the
  shape.
-/
import TrieCollections.Proofs.MatchedEntries
import TrieCollections.Proofs.TrieEdits

namespace TrieCollections

namespace Node

variable {ε κ : Type} [BEq κ] [Keyed ε κ]

/-! ### Nodes of one shape -/

/-- The nodes have the same branches, with the same bitmaps, and the same keys in the same
    places; only the entries of a list of collisions may stand in another order. -/
inductive SameShape : Node ε → Node ε → Prop
  | leaf {e e' : ε} {hash hash' : UInt64} (same : SameKey (e, hash) (e', hash')) :
      SameShape (leaf e hash) (leaf e' hash')
  | collision {es es' : List (ε × UInt64)} (same : Matched es es') :
      SameShape (collision es) (collision es')
  | branch {kids kids' : Sparse (Node ε)} (bitmap : kids.bitmap = kids'.bitmap)
      (slots : ∀ i kid kid', kids.get? i = some kid → kids'.get? i = some kid' →
        SameShape kid kid') : SameShape (branch kids) (branch kids')

inductive NoCollision : Node ε → Prop
  | leaf {e : ε} {hash : UInt64} : NoCollision (leaf e hash)
  | branch {kids : Sparse (Node ε)}
      (below : ∀ i kid, kids.get? i = some kid → NoCollision kid) : NoCollision (branch kids)

/-! ### The same keys make the same shape -/

variable [Hashed κ] {ok : κ → Prop} (law : LawfulOn ok) {depth : Nat}

theorem WellFormed.mem_slot {kids : Sparse (Node ε)} (h : (Node.branch kids).WellFormed ok depth)
    {p : ε × UInt64} (hp : p ∈ (Node.branch kids).entries) :
    ∃ kid, kids.get? (homeSlot (Keyed.key p.1) depth) = some kid ∧ p ∈ kid.entries := by
  cases h with
  | branch deep exact two below routed =>
    obtain ⟨i, kid, hi, hp⟩ := (mem_entries_branch exact).mp hp
    rw [routed i kid hi p hp]
    exact ⟨kid, hi, hp⟩

include law

/-- **Slot by slot.**  When the entries of a branch have their partners in another branch at
    the same depth, then the entries of each slot have theirs in the same slot there. -/
theorem covers_slot {kids kids' : Sparse (Node ε)} (h : (Node.branch kids).WellFormed ok depth)
    (h' : (Node.branch kids').WellFormed ok depth)
    (hcover : Covers (Node.branch kids).entries (Node.branch kids').entries) {i : Slot}
    {kid : Node ε} (hi : kids.get? i = some kid) :
    ∃ kid', kids'.get? i = some kid' ∧ Covers kid.entries kid'.entries := by
  have hstored := h.stored
  cases h with
  | branch deep exact two below routed =>
    have hpartner : ∀ p ∈ kid.entries,
        ∃ kid' q, kids'.get? i = some kid' ∧ q ∈ kid'.entries ∧ SameKey p q := by
      intro p hp
      have hmem := (mem_entries_branch exact).mpr ⟨i, kid, hi, hp⟩
      obtain ⟨q, hq, hpq⟩ := hcover p hmem
      obtain ⟨kid', hget, hq'⟩ := h'.mem_slot hq
      rw [← homeSlot_congr law (hstored p hmem).lawful (h'.stored q hq).lawful hpq.keys depth,
        routed i kid hi p hp] at hget
      exact ⟨kid', q, hget, hq', hpq⟩
    -- the slot is not empty there, since it is not empty here
    obtain ⟨p, hp⟩ := List.exists_mem_of_length_pos (below i kid hi).length_pos
    obtain ⟨kid', -, hget, -⟩ := hpartner p hp
    refine ⟨kid', hget, ?_⟩
    intro p hp
    obtain ⟨kid'', q, hget', hq, hpq⟩ := hpartner p hp
    obtain rfl := Option.some.inj (hget'.symm.trans hget)
    exact ⟨q, hq, hpq⟩

theorem WellFormed.matched {node node' : Node ε} (h : node.WellFormed ok depth)
    (h' : node'.WellFormed ok depth) (hcover : Covers node.entries node'.entries)
    (hcover' : Covers node'.entries node.entries) : Matched node.entries node'.entries :=
  matched_of_covers law h.stored h'.stored (h.distinct law) (h'.distinct law) hcover hcover'

/-- **Well-formed nodes with the same keys have the same shape.**  By induction on the first
    node; what the second one is follows from its depth and the number of its entries. -/
theorem WellFormed.sameShape {node node' : Node ε} (h : node.WellFormed ok depth)
    (h' : node'.WellFormed ok depth) (hcover : Covers node.entries node'.entries)
    (hcover' : Covers node'.entries node.entries) : node.SameShape node' := by
  induction h generalizing node' with
  | @leaf depth e hash deep stored =>
    have h : (Node.leaf e hash).WellFormed ok depth := .leaf deep stored
    have hlength := (h.matched law h' hcover hcover').length_eq
    rw [entries_leaf] at hlength hcover
    obtain ⟨e', hash', rfl⟩ := h'.eq_leaf hlength.symm
    obtain ⟨q, hq, hpq⟩ := hcover _ (List.mem_singleton_self _)
    rw [entries_leaf, List.mem_singleton] at hq
    exact .leaf (hq ▸ hpq)
  | @collision es two stored distinct =>
    have h : (Node.collision es).WellFormed ok maxDepth := .collision two stored distinct
    have hmatched := h.matched law h' hcover hcover'
    rw [entries_collision] at hmatched
    cases h' with
    | leaf =>
      have hlength := hmatched.length_eq
      rw [entries_leaf, List.length_singleton] at hlength
      omega
    | collision =>
      rw [entries_collision] at hmatched
      exact .collision hmatched
    | branch deep => exact absurd deep (Nat.lt_irrefl _)
  | @branch depth kids deep exact two below routed ih =>
    have h : (Node.branch kids).WellFormed ok depth := .branch deep exact two below routed
    cases h' with
    | @leaf _ e' hash' deep' stored' =>
      have h' : (Node.leaf e' hash').WellFormed ok depth := .leaf deep' stored'
      have hlength := (h.matched law h' hcover hcover').length_eq
      rw [entries_leaf, List.length_singleton] at hlength
      omega
    | collision => exact absurd deep (Nat.lt_irrefl _)
    | @branch _ kids' deep' exact' two' below' routed' =>
      have h' : (Node.branch kids').WellFormed ok depth := .branch deep' exact' two' below' routed'
      refine .branch (Sparse.bitmap_eq_of_isSome exact exact' fun i => ?_) ?_
      · rw [Bool.eq_iff_iff, Option.isSome_iff_exists, Option.isSome_iff_exists]
        constructor
        · rintro ⟨kid, hi⟩
          obtain ⟨kid', hi', -⟩ := covers_slot law h h' hcover hi
          exact ⟨kid', hi'⟩
        · rintro ⟨kid', hi'⟩
          obtain ⟨kid, hi, -⟩ := covers_slot law h' h hcover' hi'
          exact ⟨kid, hi⟩
      · intro i kid kid' hi hi'
        obtain ⟨kid₁, hi₁, hslot⟩ := covers_slot law h h' hcover hi
        obtain ⟨kid₂, hi₂, hslot'⟩ := covers_slot law h' h hcover' hi'
        obtain rfl := Option.some.inj (hi₁.symm.trans hi')
        obtain rfl := Option.some.inj (hi₂.symm.trans hi)
        exact ih i _ hi (below' i _ hi') hslot hslot'

/-! ### The same shape makes the same order -/

omit [BEq κ] [Keyed ε κ] [Hashed κ] law in
/-- The entries of a branch are those of its slots, in slot order. -/
theorem entries_slots {kids : Sparse (Node ε)} (hexact : kids.Exact) :
    (branch kids).entries = (List.finRange 32).flatMap fun i => entriesOf (kids.get? i) := by
  rw [entries_branch, Sparse.children_eq_filterMap hexact, List.filterMap_eq_flatMap_toList,
    List.flatMap_assoc]
  rfl

omit law in
/-- **Without collisions, nodes of one shape list their entries in one order.** -/
theorem SameShape.forall₂_entries {node node' : Node ε} (hsame : node.SameShape node')
    (h : node.WellFormed ok depth) (h' : node'.WellFormed ok depth) (hnone : node.NoCollision) :
    List.Forall₂ SameKey node.entries node'.entries := by
  induction hsame generalizing depth with
  | leaf same =>
    rw [entries_leaf, entries_leaf]
    exact .cons same .nil
  | collision => cases hnone
  | @branch kids kids' bitmap slots ih =>
    cases hnone with
    | branch hnone =>
    cases h with
    | branch _ exact _ below _ =>
    cases h' with
    | branch _ exact' _ below' _ =>
      rw [entries_slots exact, entries_slots exact']
      refine List.rel_flatMap (R := Eq) (List.forall₂_refl _) ?_
      rintro i _ rfl
      -- equal bitmaps: the slot has contents here and there, or neither here nor there
      have hsome : (kids.get? i).isSome = (kids'.get? i).isSome := by
        rw [Sparse.isSome_get? exact, Sparse.isSome_get? exact', Sparse.has, Sparse.has, bitmap]
      show List.Forall₂ SameKey (entriesOf (kids.get? i)) (entriesOf (kids'.get? i))
      rcases hi : kids.get? i with _ | kid <;> rcases hi' : kids'.get? i with _ | kid'
      · exact .nil
      · simp [hi, hi'] at hsome
      · simp [hi, hi'] at hsome
      · rw [entriesOf_some, entriesOf_some]
        exact ih i kid kid' hi hi' (below i kid hi) (below' i kid' hi') (hnone i kid hi)

end Node

/-! ### Tries of one shape -/

namespace Trie

variable {ε κ : Type} [BEq κ] [Hashed κ] [Keyed ε κ]

def SameShape (s t : Trie ε) : Prop := Option.Rel Node.SameShape s.root t.root

def NoCollision (t : Trie ε) : Prop := ∀ node, t.root = some node → node.NoCollision

namespace WellFormed

variable {ok : κ → Prop} {s t : Trie ε}

theorem forall₂_entries (hs : s.WellFormed ok) (ht : t.WellFormed ok) (hsame : s.SameShape t)
    (hnone : s.NoCollision) : List.Forall₂ SameKey s.entries t.entries := by
  rw [entries_eq, entries_eq]
  rcases hroot : s.root with _ | node <;> rcases hroot' : t.root with _ | node' <;>
    rw [SameShape, hroot, hroot'] at hsame
  · exact .nil
  · cases hsame
  · cases hsame
  · cases hsame with
    | some hsame =>
      rw [Node.entriesOf_some, Node.entriesOf_some]
      exact hsame.forall₂_entries (hs.nodes node hroot) (ht.nodes node' hroot') (hnone node hroot)

variable (law : LawfulOn ok)

include law

theorem isSome_get?_iff (ht : t.WellFormed ok) {k : κ} (hk : ok k) :
    (t.get? k).isSome = true ↔ ∃ p ∈ t.entries, (k == Keyed.key p.1) = true := by
  rw [Option.isSome_iff_exists]
  constructor
  · rintro ⟨e, he⟩
    obtain ⟨hash, hmem, heq⟩ := (ht.get?_eq_some_iff law hk).mp he
    exact ⟨(e, hash), hmem, heq⟩
  · rintro ⟨p, hp, heq⟩
    exact ⟨p.1, (ht.get?_eq_some_iff law hk).mpr ⟨p.2, hp, heq⟩⟩

/-- The entries of one trie have partners in the other one when their keys are found there. -/
theorem covers_iff (hs : s.WellFormed ok) (ht : t.WellFormed ok) :
    Covers s.entries t.entries ↔
      ∀ p ∈ s.entries, (t.get? (Keyed.key p.1)).isSome = true := by
  constructor
  · intro hcover p hp
    obtain ⟨q, hq, hpq⟩ := hcover p hp
    exact (ht.isSome_get?_iff law (hs.lawful p hp)).mpr ⟨q, hq, hpq.keys⟩
  · intro hfound p hp
    obtain ⟨q, hq, heq⟩ := (ht.isSome_get?_iff law (hs.lawful p hp)).mp (hfound p hp)
    exact ⟨q, hq, .of_beq law (hs.stored p hp) (ht.stored q hq) heq⟩

/-- A trie covers another one when it finds every key that the other one finds. -/
theorem covers_of_found (hs : s.WellFormed ok) (ht : t.WellFormed ok)
    (hfound : ∀ k, ok k → (s.get? k).isSome = true → (t.get? k).isSome = true) :
    Covers s.entries t.entries := by
  refine (hs.covers_iff law ht).mpr fun p hp => hfound _ (hs.lawful p hp) ?_
  exact (hs.isSome_get?_iff law (hs.lawful p hp)).mpr ⟨p, hp, law.refl (hs.lawful p hp)⟩

/-- **Tries with matched entries have the same shape.** -/
theorem sameShape (hs : s.WellFormed ok) (ht : t.WellFormed ok)
    (hmatched : Matched s.entries t.entries) : s.SameShape t := by
  have hcover := hmatched.covers
  have hcover' := hmatched.covers_symm law hs.stored ht.stored
  have hlength := hmatched.length_eq
  rw [entries_eq, entries_eq] at hcover hcover' hlength
  rcases hroot : s.root with _ | node <;> rcases hroot' : t.root with _ | node' <;>
    rw [hroot, hroot'] at hcover hcover' hlength <;> rw [SameShape, hroot, hroot']
  · exact .none
  · have := (ht.nodes node' hroot').length_pos
    rw [Node.entriesOf_some, Node.entriesOf_none, List.length_nil] at hlength
    omega
  · have := (hs.nodes node hroot).length_pos
    rw [Node.entriesOf_some, Node.entriesOf_none, List.length_nil] at hlength
    omega
  · rw [Node.entriesOf_some, Node.entriesOf_some] at hcover hcover'
    exact .some ((hs.nodes node hroot).sameShape law (ht.nodes node' hroot') hcover hcover')

end WellFormed

end Trie

end TrieCollections
