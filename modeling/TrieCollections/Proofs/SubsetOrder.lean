/-
  TrieCollections/Proofs/SubsetOrder.lean
  =======================================
  **Being a subset is a partial order.**  A set is tested for being a subset of another one by its
  size first and then by a walk that looks up its members there.  What the test says is that all
  elements of the one set are elements of the other (`TrieSet.isSubset_iff`), and from there on the
  order laws are those of an implication.

  The sizes are another matter.  They can stand in for a look at the elements since no two members
  of a set are equal: members that are all found in the other set are found in as many places.  So
  a subset is never larger, and the test by size rejects nothing that the walk would let pass
  (`TrieSet.isSubset_eq_within`).  And a subset that is not smaller either has left no member of
  the other set over, so it is equal to it (`beq_of_isSubset`).  This is what makes a subset of
  another size the same thing as a subset that is not equal.

  The operations tell a subset as well: it adds nothing in a union, loses nothing in an
  intersection, and leaves nothing in a difference.
-/
import TrieCollections.Proofs.SetContents

namespace TrieCollections

namespace TrieSet

variable {α : Type} [BEq α] [Hashed α] {ok : α → Prop} (law : LawfulOn ok) {s t u : TrieSet α}
  (hs : s.trie.WellFormed ok) (ht : t.trie.WellFormed ok) (hu : u.trie.WellFormed ok)

include law hs ht

/-! ### Sizes -/

/-- **A subset that is not smaller is equal.** -/
theorem beq_of_isSubset (h : s.isSubset t = true) (hsize : t.size ≤ s.size) : (s == t) = true := by
  rw [isSubset_eq_within law hs ht, within_iff law hs ht] at h
  rw [size, size, hs.size_eq, ht.size_eq] at hsize
  rw [beq_iff_matched law hs ht]
  exact h.matched_of_length law hs.stored ht.stored (hs.distinct law) hsize

theorem isProperSubset_iff :
    s.isProperSubset t = true ↔ s.isSubset t = true ∧ (s == t) = false := by
  rw [isProperSubset, Bool.and_eq_true, bne_iff_ne, and_comm]
  refine and_congr_right fun hsubset => ?_
  rw [Bool.eq_false_iff]
  constructor
  · intro hne hequal
    exact hne (size_eq_of_beq hequal)
  · intro hne hsize
    exact hne (beq_of_isSubset law hs ht hsubset (Nat.le_of_eq hsize.symm))

/-! ### The order -/

/-- **Sets are equal when each is a subset of the other.** -/
theorem beq_iff_isSubset :
    (s == t) = true ↔ s.isSubset t = true ∧ t.isSubset s = true := by
  rw [beq_iff_contains law hs ht, isSubset_iff law hs ht, isSubset_iff law ht hs]
  constructor
  · intro hsame
    exact ⟨fun x hx hfound => hsame x hx ▸ hfound, fun x hx hfound => (hsame x hx).symm ▸ hfound⟩
  · rintro ⟨hto, hfrom⟩ x hx
    exact Bool.eq_iff_iff.mpr ⟨hto x hx, hfrom x hx⟩

include hu in
theorem isSubset_trans (h : s.isSubset t = true) (h' : t.isSubset u = true) :
    s.isSubset u = true := by
  rw [isSubset_iff law hs ht] at h
  rw [isSubset_iff law ht hu] at h'
  rw [isSubset_iff law hs hu]
  exact fun x hx hfound => h' x hx (h x hx hfound)

/-! ### What the operations tell -/

theorem isSubset_iff_union : s.isSubset t = true ↔ (s.union t == t) = true := by
  rw [isSubset_iff law hs ht, beq_iff_contains law (wellFormed_union law hs ht) ht]
  refine forall₂_congr fun x hx => ?_
  rw [contains_union law hs ht hx]
  cases s.contains x <;> cases t.contains x <;> simp

theorem isSubset_iff_intersection : s.isSubset t = true ↔ (s.intersection t == s) = true := by
  rw [isSubset_iff law hs ht, beq_iff_contains law (wellFormed_intersection law hs ht) hs]
  refine forall₂_congr fun x hx => ?_
  rw [contains_intersection law hs ht hx]
  cases s.contains x <;> cases t.contains x <;> simp

theorem isSubset_iff_difference : s.isSubset t = true ↔ (s.difference t).isEmpty = true := by
  rw [isSubset_iff law hs ht, isEmpty_iff_contains law (wellFormed_difference law hs ht)]
  refine forall₂_congr fun x hx => ?_
  rw [contains_difference law hs ht hx]
  cases s.contains x <;> cases t.contains x <;> simp

end TrieSet

/-- **Subsets are partially ordered.**  A set is a subset of another one exactly when what it
    contains is contained there, and a proper one exactly when the two are not equal besides.
    Equal sets are subsets of each other, sets that are subsets of each other are equal, and a
    subset of a subset is one.  The same is told by the operations: the union is the larger set,
    the intersection is the smaller one, and the difference is empty. -/
theorem subsets_partially_ordered {α : Type} [BEq α] [Hashed α] {ok : α → Prop}
    (law : LawfulOn ok) :
    (∀ s t : TrieSet α, s.Reachable ok → t.Reachable ok →
      (s.isSubset t = true ↔ ∀ x, ok x → s.contains x = true → t.contains x = true) ∧
      (s.isProperSubset t = true ↔ s.isSubset t = true ∧ (s == t) = false) ∧
      ((s == t) = true → s.isSubset t = true) ∧
      (s.isSubset t = true → t.isSubset s = true → (s == t) = true) ∧
      (s.isSubset t = true ↔ (s.union t == t) = true) ∧
      (s.isSubset t = true ↔ (s.intersection t == s) = true) ∧
      (s.isSubset t = true ↔ (s.difference t).isEmpty = true)) ∧
    (∀ s : TrieSet α, s.Reachable ok → s.isSubset s = true) ∧
    ∀ s t u : TrieSet α, s.Reachable ok → t.Reachable ok → u.Reachable ok →
      s.isSubset t = true → t.isSubset u = true → s.isSubset u = true := by
  refine ⟨?both, ?refl, ?trans⟩
  case both =>
    intro s t hs ht
    have hws := hs.wellFormed law
    have hwt := ht.wellFormed law
    have hequal := TrieSet.beq_iff_isSubset law hws hwt
    exact ⟨TrieSet.isSubset_iff law hws hwt, TrieSet.isProperSubset_iff law hws hwt,
      fun h => (hequal.mp h).1, fun h h' => hequal.mpr ⟨h, h'⟩,
      TrieSet.isSubset_iff_union law hws hwt, TrieSet.isSubset_iff_intersection law hws hwt,
      TrieSet.isSubset_iff_difference law hws hwt⟩
  case refl =>
    intro s hs
    have hws := hs.wellFormed law
    rw [TrieSet.isSubset_iff law hws hws]
    exact fun _ _ hfound => hfound
  case trans =>
    intro s t u hs ht hu
    exact TrieSet.isSubset_trans law (hs.wellFormed law) (ht.wellFormed law) (hu.wellFormed law)

/-- Among colliding members a proper subset, whose members are stored under other tags. -/
theorem subsets_partially_ordered_colliding :
    LawfulOn (fun _ : ClusterKey => True) ∧
    let s : TrieSet ClusterKey := .ofList [⟨7, 2, "x"⟩, ⟨7, 1, "y"⟩]
    let t : TrieSet ClusterKey := .ofList [⟨7, 1, "a"⟩, ⟨7, 2, "b"⟩, ⟨7, 3, "c"⟩]
    s.Reachable (fun _ => True) ∧ t.Reachable (fun _ => True) ∧ s.isSubset t = true ∧
    s.isProperSubset t = true ∧ (s.union t == t) = true ∧
    (s.intersection t == s) = true ∧ (s.difference t).isEmpty = true := by
  refine ⟨lawfulOn_true, ?_⟩
  intro s t
  have law : LawfulOn fun _ : ClusterKey => True := lawfulOn_true
  have hs : s.Reachable fun _ => True := .ofList fun _ _ => trivial
  have ht : t.Reachable fun _ => True := .ofList fun _ _ => trivial
  obtain ⟨hcontained, hproper, -, -, hunion, hintersection, hdifference⟩ :=
    (subsets_partially_ordered law).1 s t hs ht
  have hcontains : ∀ (xs : List ClusterKey) (x : ClusterKey),
      (TrieSet.ofList xs).contains x = xs.any (x == ·) := fun _ _ =>
    TrieSet.contains_ofList law (fun _ _ => trivial) trivial
  have hsubset : s.isSubset t = true := by
    rw [hcontained]
    intro x _ hfound
    rw [hcontains] at hfound ⊢
    simp only [List.any_cons, List.any_nil, Bool.or_false, Bool.or_eq_true,
      ClusterKey.beq_iff] at hfound ⊢
    rcases hfound with h | h
    · exact .inr (.inl h)
    · exact .inl h
  have hdiffer : (s == t) = false := by
    rw [Bool.eq_false_iff, ne_eq, TrieSet.beq_iff_contains law (hs.wellFormed law)
      (ht.wellFormed law)]
    intro hsame
    have hlast := hsame ⟨7, 3, "c"⟩ trivial
    rw [hcontains, hcontains] at hlast
    exact absurd hlast (by decide)
  exact ⟨hs, ht, hsubset, hproper.mpr ⟨hsubset, hdiffer⟩, hunion.mp hsubset,
    hintersection.mp hsubset, hdifference.mp hsubset⟩

end TrieCollections
