/-
  TrieCollections/Proofs/SetContents.lean
  =======================================
  **What a set comprises.**  A set keeps one of several equal elements, and which one is a matter
  of history.  What is known of a result is therefore seldom its members but elements that they
  equal: the set *comprises* the elements of some description (`Comprises`).

  Descriptions compose where members do not.  Whatever a set is known to comprise, an operation
  that respects `==` can be said to be applied to that, and the members that happen to be stored
  need not be looked at.  Two sets are equal when each element of the one description has an equal
  one in the other (`Comprises.beq`).

  The members themselves are a list in which no two are equal (`Distinct`).
-/
import Mathlib.Data.List.Pairwise
import TrieCollections.Proofs.CollectionLookups

namespace TrieCollections

/-! ### Lists without repetitions -/

/-- The elements of a list are lawful, and of two neither equals the other. -/
structure Distinct {α : Type} [BEq α] (ok : α → Prop) (xs : List α) : Prop where
  lawful : ∀ x ∈ xs, ok x
  pairwise : xs.Pairwise fun x y => (x == y) = false

namespace Distinct

variable {α : Type} [BEq α] [Hashed α] {ok : α → Prop} (law : LawfulOn ok) {x : α} {xs ys : List α}

omit [Hashed α] in
theorem tail (h : Distinct ok (x :: xs)) : Distinct ok xs :=
  ⟨fun y hy => h.lawful y (List.mem_cons_of_mem _ hy), h.pairwise.tail⟩

omit [Hashed α] in
theorem filter (h : Distinct ok xs) (p : α → Bool) : Distinct ok (xs.filter p) :=
  ⟨fun x hx => h.lawful x (List.mem_of_mem_filter hx), h.pairwise.filter p⟩

include law

theorem nodup (h : Distinct ok xs) : xs.Nodup := by
  refine h.pairwise.imp_of_mem ?_
  rintro x _ hx - hne rfl
  rw [law.refl (h.lawful x hx)] at hne
  cases hne

theorem head_ne (h : Distinct ok (x :: xs)) : ∀ y ∈ xs, (y == x) = false := by
  intro y hy
  rw [law.beq_comm (h.lawful y (List.mem_cons_of_mem _ hy)) (h.lawful x List.mem_cons_self)]
  exact List.rel_of_pairwise_cons h.pairwise hy

theorem pairwise_both (h : Distinct ok xs) :
    xs.Pairwise fun x y => (x == y) = false ∧ (y == x) = false :=
  h.pairwise.imp_of_mem fun hx hy hne =>
    ⟨hne, (law.beq_comm (h.lawful _ hy) (h.lawful _ hx)).trans hne⟩

theorem perm (h : Distinct ok xs) (hperm : ys.Perm xs) : Distinct ok ys := by
  refine ⟨fun y hy => h.lawful y (hperm.mem_iff.mp hy), ?_⟩
  have hboth := (List.Perm.pairwise_iff And.symm hperm).mpr (h.pairwise_both law)
  exact hboth.imp And.left

/-- Elements that are equal are one and the same. -/
theorem eq_of_beq (h : Distinct ok xs) {y z : α} (hy : y ∈ xs) (hz : z ∈ xs)
    (heq : (y == z) = true) : y = z := by
  by_contra hne
  have hsymm : Std.Symm fun x y : α => (x == y) = false ∧ (y == x) = false := ⟨fun _ _ => And.symm⟩
  have hfalse := ((h.pairwise_both law).forall hy hz hne).1
  rw [heq] at hfalse
  cases hfalse

end Distinct

/-! ### Sets and what they comprise -/

namespace TrieSet

variable {α : Type} [BEq α] [Hashed α]

/-- The set contains what equals one of the described elements, which are lawful. -/
structure Comprises (ok : α → Prop) (s : TrieSet α) (described : α → Prop) : Prop where
  lawful : ∀ x, described x → ok x
  contains_iff : ∀ x, ok x → (s.contains x = true ↔ ∃ y, described y ∧ (x == y) = true)

variable {ok : α → Prop} (law : LawfulOn ok) {s t : TrieSet α}

omit law in
/-- Equal sets are of one size, which is what is compared first. -/
theorem size_eq_of_beq (h : (s == t) = true) : s.size = t.size := by
  have hsize : (s.size == t.size && s.hash == t.hash && (false || s.within t)) = true := h
  simp only [Bool.and_eq_true, beq_iff_eq] at hsize
  exact hsize.1.1

theorem isEmpty_iff (hs : s.trie.WellFormed ok) : s.isEmpty = true ↔ s.toList = [] := by
  rw [isEmpty, size_eq_length hs, beq_iff_eq, List.length_eq_zero_iff]

include law

theorem isEmpty_iff_contains (hs : s.trie.WellFormed ok) :
    s.isEmpty = true ↔ ∀ x, ok x → s.contains x = false := by
  rw [isEmpty_iff hs]
  constructor
  · intro hnil x hx
    rw [← any_toList law hs hx, hnil, List.any_nil]
  · intro hnone
    rw [List.eq_nil_iff_forall_not_mem]
    intro x hx
    have hfound := contains_of_mem law hs hx
    rw [hnone x (lawful_of_mem hs hx)] at hfound
    cases hfound

/-- A set lists each member once. -/
theorem distinct_toList (hs : s.trie.WellFormed ok) : Distinct ok s.toList := by
  refine ⟨fun _ hx => lawful_of_mem hs hx, ?_⟩
  rw [toList, List.pairwise_map]
  exact (hs.distinct law).imp fun h => h.1

/-- Members that are equal are one and the same. -/
theorem eq_of_mem_of_beq (hs : s.trie.WellFormed ok) {x y : α} (hx : x ∈ s.toList)
    (hy : y ∈ s.toList) (heq : (x == y) = true) : x = y :=
  (distinct_toList law hs).eq_of_beq law hx hy heq

/-- A set comprises its members. -/
theorem comprises_toList (hs : s.trie.WellFormed ok) : s.Comprises ok (· ∈ s.toList) where
  lawful _ hx := lawful_of_mem hs hx
  contains_iff _ hx := contains_iff_mem law hs hx

/-- Without an element a set comprises its other members. -/
theorem comprises_erase (hs : s.trie.WellFormed ok) {x : α} (hx : ok x) :
    (s.erase x).Comprises ok fun y => y ∈ s.toList ∧ (y == x) = false where
  lawful _ hy := lawful_of_mem hs hy.1
  contains_iff y hy := by
    rw [contains_erase law hs hx hy, Bool.and_eq_true, contains_iff_mem law hs hy,
      Bool.not_eq_true']
    constructor
    · rintro ⟨hne, z, hz, heq⟩
      have hsame := law.beq_congr hy (lawful_of_mem hs hz) hx heq
      exact ⟨z, ⟨hz, hsame ▸ hne⟩, heq⟩
    · rintro ⟨z, ⟨hz, hne⟩, heq⟩
      have hsame := law.beq_congr hy (lawful_of_mem hs hz) hx heq
      exact ⟨hsame ▸ hne, z, hz, heq⟩

theorem comprises_ofList {xs : List α} (hxs : ∀ x ∈ xs, ok x) :
    (ofList xs).Comprises ok (· ∈ xs) where
  lawful := hxs
  contains_iff x hx := by rw [contains_ofList law hxs hx, List.any_eq_true]

/-- A set built from different elements has just these for members. -/
theorem perm_toList_ofList {xs : List α} (hxs : Distinct ok xs) : (ofList xs).toList.Perm xs := by
  have hwf : (ofList xs).trie.WellFormed ok :=
    wellFormed_insertMany law wellFormed_empty hxs.lawful
  rw [List.perm_ext_iff_of_nodup ((distinct_toList law hwf).nodup law) (hxs.nodup law)]
  intro x
  constructor
  · exact mem_of_mem_ofList law hxs.lawful
  · intro hx
    have hfound : (ofList xs).contains x = true := by
      rw [contains_ofList law hxs.lawful (hxs.lawful x hx), List.any_eq_true]
      exact ⟨x, hx, law.refl (hxs.lawful x hx)⟩
    obtain ⟨y, hy, heq⟩ := (contains_iff_mem law hwf (hxs.lawful x hx)).mp hfound
    rwa [hxs.eq_of_beq law hx (mem_of_mem_ofList law hxs.lawful hy) heq]

namespace Comprises

variable {described described' : α → Prop} (h : s.Comprises ok described)

include h

theorem contains {x : α} (hx : described x) : s.contains x = true :=
  (h.contains_iff x (h.lawful x hx)).mpr ⟨x, hx, law.refl (h.lawful x hx)⟩

section Members

variable (hs : s.trie.WellFormed ok)

include hs

/-- Of each described element an equal one is stored. -/
theorem exists_mem {x : α} (hx : described x) : ∃ y ∈ s.toList, (x == y) = true :=
  (contains_iff_mem law hs (h.lawful x hx)).mp (h.contains law hx)

/-- Each stored element equals a described one. -/
theorem exists_of_mem {x : α} (hx : x ∈ s.toList) : ∃ y, described y ∧ (x == y) = true :=
  (h.contains_iff x (lawful_of_mem hs hx)).mp (contains_of_mem law hs hx)

end Members

/-- Another description will do when the two have equal elements. -/
theorem redescribe (hlawful : ∀ x, described' x → ok x)
    (hto : ∀ x, described x → ∃ y, described' y ∧ (x == y) = true)
    (hfrom : ∀ y, described' y → ∃ x, described x ∧ (y == x) = true) :
    s.Comprises ok described' := by
  refine ⟨hlawful, ?_⟩
  intro x hx
  rw [h.contains_iff x hx]
  constructor
  · rintro ⟨y, hy, heq⟩
    obtain ⟨z, hz, hyz⟩ := hto y hy
    exact ⟨z, hz, law.trans hx (h.lawful y hy) (hlawful z hz) heq hyz⟩
  · rintro ⟨y, hy, heq⟩
    obtain ⟨z, hz, hyz⟩ := hfrom y hy
    exact ⟨z, hz, law.trans hx (hlawful y hy) (h.lawful z hz) heq hyz⟩

/-- **Sets that comprise the same are equal.** -/
theorem beq (h' : t.Comprises ok described) (hs : s.trie.WellFormed ok)
    (ht : t.trie.WellFormed ok) : (s == t) = true := by
  rw [beq_iff_contains law hs ht]
  intro x hx
  rw [Bool.eq_iff_iff, h.contains_iff x hx, h'.contains_iff x hx]

/-- A set of which all elements equal one is the set of that one. -/
theorem beq_unit (hs : s.trie.WellFormed ok) {x : α} (hx : ok x)
    (hall : ∀ y, described y → (y == x) = true) (hsome : ∃ y, described y) :
    (s == unit x) = true := by
  have hunit : (unit x).trie.WellFormed ok := wellFormed_insert law wellFormed_empty hx
  rw [beq_iff_contains law hs hunit]
  intro z hz
  rw [Bool.eq_iff_iff, h.contains_iff z hz, contains_iff_mem law hunit hz, toList_unit]
  constructor
  · rintro ⟨y, hy, heq⟩
    exact ⟨x, List.mem_cons_self, law.trans hz (h.lawful y hy) hx heq (hall y hy)⟩
  · rintro ⟨y, hy, heq⟩
    obtain rfl := List.mem_singleton.mp hy
    obtain ⟨y, hy⟩ := hsome
    have hok := h.lawful y hy
    exact ⟨y, hy, law.trans hz hx hok heq (law.symm hok hx (hall y hy))⟩

end Comprises

end TrieSet

end TrieCollections
