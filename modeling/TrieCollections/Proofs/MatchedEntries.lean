/-
  TrieCollections/Proofs/MatchedEntries.lean
  ==========================================
  **Lists with the same keys.**  Two lists of entries are *matched* when, after one of them
  is put into another order, they agree key by key and stored hash by stored hash.

  For lists without equal keys it is enough that one of them *covers* the other: an entry
  cannot serve as the partner of two entries, since these would then have equal keys.  So a
  covering list is at least as long, and two lists are matched when they cover each other
  (`matched_of_covers`) or when one covers the other and is no longer
  (`Covers.matched_of_length`).  A comparison by size and lookup rests on the second.
-/
import TrieCollections.Proofs.EntryLists

namespace TrieCollections

/-! ### Partners -/

section Partners

variable {α β : Type} {R : α → β → Prop}

/-- **Partners of different elements are different**, where no two elements can share one.  So a
    list that covers another has a part that goes with it element by element. -/
theorem exists_part_of_apart {xs : List α} {ys : List β}
    (hapart : xs.Pairwise fun x x' => ∀ y ∈ ys, R x y → ¬ R x' y)
    (hcover : ∀ x ∈ xs, ∃ y ∈ ys, R x y) :
    ∃ ms rest, ys.Perm (ms ++ rest) ∧ List.Forall₂ R xs ms := by
  induction xs generalizing ys with
  | nil => exact ⟨[], ys, List.Perm.refl _, .nil⟩
  | cons x xs ih =>
    obtain ⟨hx, hapart⟩ := List.pairwise_cons.mp hapart
    obtain ⟨y, hy, hxy⟩ := hcover x List.mem_cons_self
    obtain ⟨front, back, rfl⟩ := List.append_of_mem hy
    have hsub : ∀ z ∈ front ++ back, z ∈ front ++ y :: back := fun z hz =>
      List.perm_middle.mem_iff.mpr (List.mem_cons_of_mem _ hz)
    have hcover' : ∀ x' ∈ xs, ∃ z ∈ front ++ back, R x' z := by
      intro x' hx'
      obtain ⟨z, hz, hxz⟩ := hcover x' (List.mem_cons_of_mem _ hx')
      refine ⟨z, ?_, hxz⟩
      rcases List.mem_cons.mp (List.perm_middle.mem_iff.mp hz) with rfl | hz
      · exact absurd hxz (hx x' hx' z hy hxy)
      · exact hz
    obtain ⟨ms, rest, hperm, hms⟩ :=
      ih (hapart.imp fun h z hz => h z (hsub z hz)) hcover'
    exact ⟨y :: ms, rest, List.perm_middle.trans (hperm.cons y), .cons hxy hms⟩

/-- A list is no longer than one that covers it. -/
theorem length_le_of_apart {xs : List α} {ys : List β}
    (hapart : xs.Pairwise fun x x' => ∀ y ∈ ys, R x y → ¬ R x' y)
    (hcover : ∀ x ∈ xs, ∃ y ∈ ys, R x y) : xs.length ≤ ys.length := by
  obtain ⟨ms, rest, hperm, hms⟩ := exists_part_of_apart hapart hcover
  rw [hperm.length_eq, List.length_append, hms.length_eq]
  exact Nat.le_add_right _ _

theorem exists_partner {xs : List α} {ys : List β} (h : List.Forall₂ R xs ys) :
    ∀ x ∈ xs, ∃ y ∈ ys, R x y := by
  induction h with
  | nil => exact fun x hx => absurd hx List.not_mem_nil
  | @cons x y xs ys hxy hys ih =>
    intro x' hx'
    rcases List.mem_cons.mp hx' with rfl | hx'
    · exact ⟨y, List.mem_cons_self, hxy⟩
    · obtain ⟨z, hz, h⟩ := ih x' hx'
      exact ⟨z, List.mem_cons_of_mem _ hz, h⟩

end Partners

/-! ### Entries -/

variable {ε κ : Type} [BEq κ] [Keyed ε κ]

/-- Two entries have equal keys and are stored with one hash. -/
structure SameKey (p q : ε × UInt64) : Prop where
  keys : (Keyed.key p.1 == Keyed.key q.1) = true
  hashes : p.2 = q.2

def Covers (es es' : List (ε × UInt64)) : Prop := ∀ p ∈ es, ∃ q ∈ es', SameKey p q

/-- The lists agree in their keys and hashes, but for the order of the second one. -/
def Matched (es es' : List (ε × UInt64)) : Prop := ∃ ms, es'.Perm ms ∧ List.Forall₂ SameKey es ms

theorem Matched.length_eq {es es' : List (ε × UInt64)} (h : Matched es es') :
    es.length = es'.length := by
  obtain ⟨ms, hperm, hms⟩ := h
  rw [hperm.length_eq, hms.length_eq]

theorem Matched.covers {es es' : List (ε × UInt64)} (h : Matched es es') : Covers es es' := by
  obtain ⟨ms, hperm, hms⟩ := h
  intro p hp
  obtain ⟨q, hq, hpq⟩ := exists_partner hms p hp
  exact ⟨q, hperm.mem_iff.mpr hq, hpq⟩

theorem Matched.combined_eq {es es' : List (ε × UInt64)} (h : Matched es es')
    (hsame : ∀ p ∈ es, ∀ q ∈ es', SameKey p q →
      Keyed.contribution p.2 p.1 = Keyed.contribution q.2 q.1) : combined es = combined es' := by
  obtain ⟨ms, hperm, hms⟩ := h
  rw [combined_perm hperm]
  have hsame' : ∀ p ∈ es, ∀ q ∈ ms, SameKey p q →
      Keyed.contribution p.2 p.1 = Keyed.contribution q.2 q.1 :=
    fun p hp q hq => hsame p hp q (hperm.mem_iff.mpr hq)
  clear hsame hperm
  induction hms with
  | nil => rfl
  | @cons p q es ms hpq hms ih =>
    rw [combined_cons, combined_cons, hsame' p List.mem_cons_self q List.mem_cons_self hpq,
      ih fun p hp q hq => hsame' p (List.mem_cons_of_mem _ hp) q (List.mem_cons_of_mem _ hq)]

variable [Hashed κ] {ok : κ → Prop} (law : LawfulOn ok) {es es' : List (ε × UInt64)}

include law

theorem SameKey.symm {p q : ε × UInt64} (hp : Stored ok p) (hq : Stored ok q)
    (h : SameKey p q) : SameKey q p :=
  ⟨law.symm hp.lawful hq.lawful h.keys, h.hashes.symm⟩

theorem SameKey.of_beq {p q : ε × UInt64} (hp : Stored ok p) (hq : Stored ok q)
    (h : (Keyed.key p.1 == Keyed.key q.1) = true) : SameKey p q :=
  ⟨h, by rw [hp.hash, hq.hash, law.hashValue_congr hp.lawful hq.lawful h]⟩

/-- Two entries with a partner in common would have equal keys. -/
theorem DistinctKeys.apart (hs : ∀ p ∈ es, Stored ok p) (hs' : ∀ q ∈ es', Stored ok q)
    (hd : DistinctKeys es) :
    es.Pairwise fun p p' => ∀ q ∈ es', SameKey p q → ¬ SameKey p' q := by
  refine hd.imp_of_mem ?_
  intro p p' hp hp' hne q hq hpq hpq'
  have heq := law.trans (hs p hp).lawful (hs' q hq).lawful (hs p' hp').lawful hpq.keys
    (law.symm (hs p' hp').lawful (hs' q hq).lawful hpq'.keys)
  exact absurd heq (by simp [hne.1])

theorem Covers.length_le (hs : ∀ p ∈ es, Stored ok p) (hs' : ∀ q ∈ es', Stored ok q)
    (hd : DistinctKeys es) (hcover : Covers es es') : es.length ≤ es'.length :=
  length_le_of_apart (hd.apart law hs hs') hcover

/-- A covering list that is no longer than the covered one is matched with it. -/
theorem Covers.matched_of_length (hs : ∀ p ∈ es, Stored ok p) (hs' : ∀ q ∈ es', Stored ok q)
    (hd : DistinctKeys es) (hcover : Covers es es') (hlength : es'.length ≤ es.length) :
    Matched es es' := by
  obtain ⟨ms, rest, hperm, hms⟩ := exists_part_of_apart (hd.apart law hs hs') hcover
  have hrest : rest = [] := by
    have hp := hperm.length_eq
    have hm := hms.length_eq
    rw [List.length_append] at hp
    exact List.eq_nil_of_length_eq_zero (by omega)
  rw [hrest, List.append_nil] at hperm
  exact ⟨ms, hperm, hms⟩

/-- **Lists that cover each other are matched.** -/
theorem matched_of_covers (hs : ∀ p ∈ es, Stored ok p) (hs' : ∀ q ∈ es', Stored ok q)
    (hd : DistinctKeys es) (hd' : DistinctKeys es') (hcover : Covers es es')
    (hcover' : Covers es' es) : Matched es es' :=
  hcover.matched_of_length law hs hs' hd (hcover'.length_le law hs' hs hd')

/-- The partners of the second list stand in the first one, since equality is symmetric. -/
theorem Matched.covers_symm (hs : ∀ p ∈ es, Stored ok p) (hs' : ∀ q ∈ es', Stored ok q)
    (h : Matched es es') : Covers es' es := by
  obtain ⟨ms, hperm, hms⟩ := h
  intro q hq
  obtain ⟨p, hp, hpq⟩ := exists_partner hms.flip q (hperm.mem_iff.mp hq)
  exact ⟨p, hp, SameKey.symm law (hs p hp) (hs' q hq) hpq⟩

end TrieCollections
