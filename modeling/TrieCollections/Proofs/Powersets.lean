/-
  TrieCollections/Proofs/Powersets.lean
  =====================================
  **The set of all subsets.**  It is made by growing a family of sets: for each member in turn, all
  sets of the family are put in once more, with that member.  What a family is after some members is
  said in terms of these alone (`Subsets`): it contains the sets that are *drawn from* them, whose
  elements all equal one of them, and there are two to the power of their number.

  A set in the family lacks the member that comes next, for it is drawn from the members before,
  none of which equals that one.  So a set drawn from the members with the new one is in the family
  or is a set of the family with the new member, and never both; and two sets of the family stay
  different when the member is added to them.  That doubles the family (`Subsets.grow`).

  Sets in a set are told apart by their elements.  That two of them have one hash does not make them
  equal, and the order in which the members come does not matter.
-/
import Mathlib.Algebra.Group.Nat.Defs
import TrieCollections.Proofs.SetContents

namespace TrieCollections

namespace TrieSet

variable {α : Type} [BEq α] [Hashed α] {ok : α → Prop} (law : LawfulOn ok) {s t u : TrieSet α}
  {x : α} {xs : List α}

include law

/-! ### Adding what is absent -/

theorem size_insert_of_absent (hs : s.trie.WellFormed ok) (hx : ok x)
    (habsent : s.contains x = false) : (s.insert x).size = s.size + 1 := by
  have hsize : (s.insert x).size = s.size + if (s.trie.get? x).isNone then 1 else 0 :=
    hs.size_insert law (e := Member.mk x) hx
  rw [contains_eq, Option.isSome_eq_false_iff] at habsent
  rw [hsize, if_pos habsent]

/-- Elements that the set lacks, of which no two are equal, all count. -/
theorem size_insertMany_of_absent (hs : s.trie.WellFormed ok) (hxs : Distinct ok xs)
    (habsent : ∀ x ∈ xs, s.contains x = false) :
    (s.insertMany xs).size = s.size + xs.length := by
  induction xs generalizing s with
  | nil => rfl
  | cons x xs ih =>
    have hx := hxs.lawful x List.mem_cons_self
    have hrest : ∀ y ∈ xs, (s.insert x).contains y = false := by
      intro y hy
      rw [contains_insert law hs hx (hxs.lawful y (List.mem_cons_of_mem _ hy)),
        hxs.head_ne law y hy, habsent y (List.mem_cons_of_mem _ hy), Bool.or_false]
    show ((s.insert x).insertMany xs).size = _
    rw [ih (wellFormed_insert law hs hx) hxs.tail hrest,
      size_insert_of_absent law hs hx (habsent x List.mem_cons_self), List.length_cons]
    omega

/-! ### Sets drawn from some elements -/

omit law in
/-- Whatever the set contains equals one of the list. -/
def DrawnFrom (ok : α → Prop) (t : TrieSet α) (xs : List α) : Prop :=
  ∀ y, ok y → t.contains y = true → ∃ x ∈ xs, (y == x) = true

theorem drawnFrom_toList (hs : s.trie.WellFormed ok) (ht : t.trie.WellFormed ok) :
    t.DrawnFrom ok s.toList ↔ t.isSubset s = true := by
  rw [isSubset_iff law ht hs]
  refine forall₃_congr fun y hy _ => ?_
  rw [contains_iff_mem law hs hy]

/-- The empty set is the one that is drawn from no elements. -/
theorem drawnFrom_nil (ht : t.trie.WellFormed ok) :
    t.DrawnFrom ok [] ↔ (t == empty) = true := by
  rw [beq_iff_contains law ht wellFormed_empty]
  refine forall₂_congr fun y hy => ?_
  simp

theorem DrawnFrom.congr (h : u.DrawnFrom ok xs) (ht : t.trie.WellFormed ok)
    (hu : u.trie.WellFormed ok) (heq : (t == u) = true) : t.DrawnFrom ok xs := by
  intro y hy hfound
  rw [(beq_iff_contains law ht hu).mp heq y hy] at hfound
  exact h y hy hfound

section Extended

variable (hx : ok x) (ht : t.trie.WellFormed ok) (hu : u.trie.WellFormed ok)

omit law in
theorem DrawnFrom.concat (h : t.DrawnFrom ok xs) : t.DrawnFrom ok (xs ++ [x]) := by
  intro y hy hfound
  obtain ⟨z, hz, heq⟩ := h y hy hfound
  exact ⟨z, List.mem_append_left _ hz, heq⟩

omit law in
/-- A set is drawn from a list without its last element if it contains nothing that equals that. -/
theorem DrawnFrom.of_concat (h : t.DrawnFrom ok (xs ++ [x]))
    (hlacks : ∀ y, ok y → t.contains y = true → (y == x) = false) : t.DrawnFrom ok xs := by
  intro y hy hfound
  obtain ⟨z, hz, heq⟩ := h y hy hfound
  rcases List.mem_append.mp hz with hz | hz
  · exact ⟨z, hz, heq⟩
  · obtain rfl := List.mem_singleton.mp hz
    rw [hlacks y hy hfound] at heq
    cases heq

include hx

omit law in
theorem DrawnFrom.lacks (hne : ∀ y ∈ xs, (x == y) = false) (h : t.DrawnFrom ok xs) :
    t.contains x = false := by
  rw [Bool.eq_false_iff]
  intro hfound
  obtain ⟨y, hy, heq⟩ := h x hx hfound
  rw [hne y hy] at heq
  cases heq

include hu

theorem DrawnFrom.insert (h : u.DrawnFrom ok xs) : (u.insert x).DrawnFrom ok (xs ++ [x]) := by
  intro y hy hfound
  rw [contains_insert law hu hx hy, Bool.or_eq_true] at hfound
  rcases hfound with heq | hfound
  · exact ⟨x, List.mem_append_right _ (List.mem_singleton_self x), heq⟩
  · exact h.concat y hy hfound

omit hu
include ht

theorem DrawnFrom.erase (h : t.DrawnFrom ok (xs ++ [x])) : (t.erase x).DrawnFrom ok xs := by
  refine of_concat (x := x) ?_ ?_
  · intro y hy hfound
    rw [contains_erase law ht hx hy, Bool.and_eq_true] at hfound
    exact h y hy hfound.2
  · intro y hy hfound
    rw [contains_erase law ht hx hy, Bool.and_eq_true, Bool.not_eq_true'] at hfound
    exact hfound.1

theorem beq_insert_erase (hfound : t.contains x = true) :
    (t == (t.erase x).insert x) = true := by
  have hterase := wellFormed_erase law ht hx
  rw [beq_iff_contains law ht (wellFormed_insert law hterase hx)]
  intro y hy
  rw [contains_insert law hterase hx hy, contains_erase law ht hx hy]
  by_cases heq : (y == x) = true
  · rw [contains_congr law ht hy hx heq, hfound, heq, Bool.true_or]
  · simp [heq]

end Extended

/-- Sets that lack an element stay different when it is added to both. -/
theorem insert_beq_insert (hx : ok x) (ht : t.trie.WellFormed ok) (hu : u.trie.WellFormed ok)
    (hlacks : t.contains x = false) (hlacks' : u.contains x = false)
    (h : (t.insert x == u.insert x) = true) : (t == u) = true := by
  rw [beq_iff_contains law (wellFormed_insert law ht hx) (wellFormed_insert law hu hx)] at h
  rw [beq_iff_contains law ht hu]
  intro y hy
  have hsame := h y hy
  rw [contains_insert law ht hx hy, contains_insert law hu hx hy] at hsame
  by_cases heq : (y == x) = true
  · rw [contains_congr law ht hy hx heq, contains_congr law hu hy hx heq, hlacks, hlacks']
  · simpa [heq] using hsame

/-! ### Growing a family of sets -/

variable {family : TrieSet (TrieSet α)}

omit law in
/-- The family with all its sets once more, each with `x`. -/
def grow (family : TrieSet (TrieSet α)) (x : α) : TrieSet (TrieSet α) :=
  family.insertMany (family.toList.map (·.insert x))

omit law in
theorem powerset_eq (s : TrieSet α) : s.powerset = s.toList.foldl grow (unit empty) := rfl

omit law in
/-- The family consists of the sets that are drawn from the list. -/
structure Subsets (ok : α → Prop) (xs : List α) (family : TrieSet (TrieSet α)) : Prop where
  wellFormed : family.trie.WellFormed fun t => t.trie.WellFormed ok
  contains_iff : ∀ t, t.trie.WellFormed ok → (family.contains t = true ↔ t.DrawnFrom ok xs)
  size_eq : family.size = 2 ^ xs.length

namespace Subsets

theorem start : Subsets ok [] (unit (empty : TrieSet α)) := by
  have hempty : (empty : TrieSet α).trie.WellFormed ok := wellFormed_empty
  have hwf : (unit (empty : TrieSet α)).trie.WellFormed fun t => t.trie.WellFormed ok :=
    wellFormed_insert (TrieSet.lawfulOn law) wellFormed_empty hempty
  refine ⟨hwf, ?_, ?_⟩
  · intro t ht
    rw [drawnFrom_nil law ht, contains_iff_mem (TrieSet.lawfulOn law) hwf ht, toList_unit]
    simp
  · rw [size_eq_length hwf, toList_unit]
    rfl

section Step

variable (h : Subsets ok xs family)

include h

theorem drawnFrom_of_mem (ht : t ∈ family.toList) : t.DrawnFrom ok xs :=
  (h.contains_iff t (lawful_of_mem h.wellFormed ht)).mp
    (contains_of_mem (TrieSet.lawfulOn law) h.wellFormed ht)

variable (hx : ok x) (hne : ∀ y ∈ xs, (x == y) = false)

include hx hne

/-- No two of the sets that are put in are equal. -/
theorem distinct_grown :
    Distinct (fun t => t.trie.WellFormed ok) (family.toList.map (·.insert x)) := by
  have hdistinct := distinct_toList (TrieSet.lawfulOn law) h.wellFormed
  refine ⟨?_, ?_⟩
  · intro t ht
    obtain ⟨u, hu, rfl⟩ := List.mem_map.mp ht
    exact wellFormed_insert law (hdistinct.lawful u hu) hx
  · rw [List.pairwise_map]
    refine hdistinct.pairwise.imp_of_mem ?_
    intro t u ht hu hdiffer
    have hlacks := (h.drawnFrom_of_mem law ht).lacks hx hne
    have hlacks' := (h.drawnFrom_of_mem law hu).lacks hx hne
    rw [Bool.eq_false_iff] at hdiffer ⊢
    intro heq
    exact hdiffer (insert_beq_insert law hx (hdistinct.lawful t ht) (hdistinct.lawful u hu) hlacks
      hlacks' heq)

/-- None of the sets that are put in is there yet: they have the element that the others lack. -/
theorem absent_grown : ∀ t ∈ family.toList.map (·.insert x), family.contains t = false := by
  intro t ht
  have hokt := (h.distinct_grown law hx hne).lawful t ht
  obtain ⟨u, hu, rfl⟩ := List.mem_map.mp ht
  rw [Bool.eq_false_iff]
  intro hfound
  have hlacks := ((h.contains_iff _ hokt).mp hfound).lacks hx hne
  rw [contains_insert law (lawful_of_mem h.wellFormed hu) hx hx, law.refl hx,
    Bool.true_or] at hlacks
  cases hlacks

/-- **One more member** doubles the family, and it then consists of what is drawn from the members
    up to this one. -/
theorem grow : Subsets ok (xs ++ [x]) (TrieSet.grow family x) := by
  have lawSet := TrieSet.lawfulOn law
  have hgrown := h.distinct_grown law hx hne
  refine ⟨wellFormed_insertMany lawSet h.wellFormed hgrown.lawful, ?contains, ?size⟩
  case contains =>
    intro t ht
    rw [TrieSet.grow, contains_insertMany lawSet h.wellFormed hgrown.lawful ht, Bool.or_eq_true,
      List.any_map, List.any_eq_true, h.contains_iff t ht]
    constructor
    · rintro (⟨u, hu, heq⟩ | hdrawn)
      · have hu' := lawful_of_mem h.wellFormed hu
        exact ((h.drawnFrom_of_mem law hu).insert law hx hu').congr law ht
          (wellFormed_insert law hu' hx) heq
      · exact hdrawn.concat
    · intro hdrawn
      rcases hfound : t.contains x with _ | _
      · refine .inr (hdrawn.of_concat fun y hy hfound' => ?_)
        rw [Bool.eq_false_iff]
        intro heq
        rw [contains_congr law ht hy hx heq, hfound] at hfound'
        cases hfound'
      · -- without the new member the set is in the family
        have hrest := wellFormed_erase law ht hx
        obtain ⟨u, hu, heq⟩ := (contains_iff_mem lawSet h.wellFormed hrest).mp
          ((h.contains_iff _ hrest).mpr (hdrawn.erase law hx ht))
        have hu' := lawful_of_mem h.wellFormed hu
        exact .inl ⟨u, hu, lawSet.trans ht (wellFormed_insert law hrest hx)
          (wellFormed_insert law hu' hx) (beq_insert_erase law hx ht hfound)
          (insert_congr law hrest hu' heq hx hx (law.refl hx))⟩
  case size =>
    rw [TrieSet.grow, size_insertMany_of_absent lawSet h.wellFormed hgrown
      (h.absent_grown law hx hne), List.length_map, ← size_eq_length h.wellFormed, h.size_eq,
      List.length_append, List.length_singleton, pow_succ]
    omega

end Step

/-- **The families that come of different elements**, by induction on the list of these. -/
theorem foldl_grow (hxs : Distinct ok xs) : Subsets ok xs (xs.foldl TrieSet.grow (unit empty)) := by
  induction xs using List.reverseRecOn with
  | nil => exact start law
  | append_singleton xs x ih =>
    obtain ⟨hlawful, hpairwise⟩ := hxs
    obtain ⟨hpairwise, -, hnew⟩ := List.pairwise_append.mp hpairwise
    have hx := hlawful x (List.mem_append_right _ (List.mem_singleton_self x))
    have hlawful' : ∀ y ∈ xs, ok y := fun y hy => hlawful y (List.mem_append_left _ hy)
    rw [List.foldl_concat]
    refine (ih ⟨hlawful', hpairwise⟩).grow law hx ?_
    intro y hy
    rw [law.beq_comm hx (hlawful' y hy)]
    exact hnew y hy x (List.mem_singleton_self x)

end Subsets

end TrieSet

/-- **The set of all subsets.**  It contains a set exactly when that is a subset, which is when all
    its elements are elements of the set.  There are two to the power of the number of members, and
    no two of them are equal. -/
theorem powerset_comprises_subsets {α : Type} [BEq α] [Hashed α] {ok : α → Prop}
    (law : LawfulOn ok) (s : TrieSet α) (hs : s.Reachable ok) :
    (∀ t : TrieSet α, t.Reachable ok →
      (s.powerset.contains t = true ↔ t.isSubset s = true) ∧
      (s.powerset.contains t = true ↔
        ∀ x, ok x → t.contains x = true → s.contains x = true)) ∧
    s.powerset.size = 2 ^ s.size ∧ s.powerset.toList.length = 2 ^ s.size ∧
    Distinct (fun t => t.Reachable ok) s.powerset.toList := by
  have hwf := hs.wellFormed law
  have hsubsets := TrieSet.Subsets.foldl_grow law (TrieSet.distinct_toList law hwf)
  rw [← TrieSet.powerset_eq] at hsubsets
  have lawSet : LawfulOn fun t : TrieSet α => t.Reachable ok :=
    (TrieSet.lawfulOn law).mono fun _ ht => ht.wellFormed law
  have hmembers := (TrieSet.reachable_powerset lawSet .empty fun t x ht hx =>
    ht.insert (TrieSet.lawful_of_mem hwf hx)).wellFormed lawSet
  have hcount : s.powerset.size = 2 ^ s.size := by
    rw [hsubsets.size_eq, TrieSet.size_eq_length hwf]
  refine ⟨?_, hcount, ?_, TrieSet.distinct_toList lawSet hmembers⟩
  · intro t ht
    have hwt := ht.wellFormed law
    rw [hsubsets.contains_iff t hwt, TrieSet.drawnFrom_toList law hwf hwt]
    exact ⟨Iff.rfl, TrieSet.isSubset_iff law hwt hwf⟩
  · rw [← TrieSet.size_eq_length hsubsets.wellFormed, hcount]

/-- Members of one hash, so that all subsets of one size have the same hash too. -/
theorem powerset_comprises_subsets_colliding :
    LawfulOn (fun _ : ClusterKey => True) ∧
    let s : TrieSet ClusterKey := .ofList [⟨7, 1, "a"⟩, ⟨7, 2, "b"⟩, ⟨7, 3, "c"⟩]
    let t : TrieSet ClusterKey := .ofList [⟨7, 3, "d"⟩, ⟨7, 1, "e"⟩]
    s.Reachable (fun _ => True) ∧ t.Reachable (fun _ => True) ∧
    (s.powerset.contains t = true ↔ t.isSubset s = true) ∧ s.powerset.size = 2 ^ s.size := by
  refine ⟨lawfulOn_true, ?_⟩
  intro s t
  have hs : s.Reachable fun _ => True := .ofList fun _ _ => trivial
  have ht : t.Reachable fun _ => True := .ofList fun _ _ => trivial
  obtain ⟨hcontains, hcount, -⟩ := powerset_comprises_subsets lawfulOn_true s hs
  exact ⟨hs, ht, (hcontains t ht).1, hcount⟩

end TrieCollections
