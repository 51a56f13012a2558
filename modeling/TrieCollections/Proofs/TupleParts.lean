/-
  TrieCollections/Proofs/TupleParts.lean
  ======================================
  **Two tuples taken apart and put together.**  The attributes of two tuples fall into those
  that both have, those of the first one only and those of the second one only (`Divides`).
  A tuple is known by what stands under each attribute, so all that is claimed here is checked
  attribute by attribute, by whether the one tuple has it and whether the other has.

    * The two *match* when equal values stand under the attributes that both have, and that is
      so exactly when their common parts are equal (`matches_iff_project`).
    * If they match, their three parts together are the first tuple updated with the second
      (`rejoin`): under a common attribute the one value is as good as the other.
    * Parts with no attribute in common can be put on in either order (`update_comm`).
-/
import TrieCollections.Proofs.CollectionLookups

namespace TrieCollections

namespace TrieMap

variable {κ ν : Type} [BEq κ] [Hashed κ] [BEq ν] [Hashed ν] {ok : κ → Prop} {okValue : ν → Prop}

/-- Under every key that both maps have stand equal values. -/
def Matches (ok : κ → Prop) (x y : TrieMap κ ν) : Prop :=
  ∀ k, ok k → ∀ v w, x.get? k = some v → y.get? k = some w → (v == w) = true

/-- The test for a match, entry by entry. -/
def agrees (x y : TrieMap κ ν) : Bool := x.toList.all fun e => (y.get? e.1).all (e.2 == ·)

/-- The keys of two maps, divided into those of both, of the left one and of the right one. -/
structure Divides (ok : κ → Prop) (x y : TrieMap κ ν) (common left right : TrieSet κ) : Prop where
  common_wellFormed : common.trie.WellFormed ok
  left_wellFormed : left.trie.WellFormed ok
  right_wellFormed : right.trie.WellFormed ok
  contains_common : ∀ k, ok k → common.contains k = (x.contains k && y.contains k)
  contains_left : ∀ k, ok k → left.contains k = (x.contains k && !y.contains k)
  contains_right : ∀ k, ok k → right.contains k = (y.contains k && !x.contains k)

variable (law : LawfulOn ok) (lawValue : LawfulOn okValue) {p x y : TrieMap κ ν}
  {common left right : TrieSet κ}

include law

theorem agrees_iff_matches (hx : x.trie.WellFormed ok) (hy : y.trie.WellFormed ok) :
    x.agrees y = true ↔ Matches ok x y := by
  simp only [agrees, List.all_eq_true, Option.all_eq_true]
  constructor
  · intro h k hk v w hv hw
    obtain ⟨e, he, hke, rfl⟩ := (get?_eq_some_iff_mem law hx hk).mp hv
    rw [get?_congr law hy hk (lawful_of_mem hx he) hke] at hw
    exact h e he w hw
  · intro h e he w hw
    exact h e.1 (lawful_of_mem hx he) e.2 w (get?_of_mem_toList law hx he) hw

omit [BEq ν] in
/-- Divided along the headers of two maps, these being known up to what they contain. -/
theorem divides_of_headers {xs ys : TrieSet κ} (hxs : xs.trie.WellFormed ok)
    (hys : ys.trie.WellFormed ok) (hx : ∀ k, ok k → xs.contains k = x.contains k)
    (hy : ∀ k, ok k → ys.contains k = y.contains k) :
    Divides ok x y (xs.intersection ys) (xs.difference (xs.intersection ys))
      (ys.difference (xs.intersection ys)) := by
  have hcommon := TrieSet.wellFormed_intersection law hxs hys
  refine ⟨hcommon, TrieSet.wellFormed_difference law hxs hcommon,
    TrieSet.wellFormed_difference law hys hcommon, ?_, ?_, ?_⟩
  · intro k hk
    rw [TrieSet.contains_intersection law hxs hys hk, hx k hk, hy k hk]
  · intro k hk
    rw [TrieSet.contains_difference law hxs hcommon hk,
      TrieSet.contains_intersection law hxs hys hk, hx k hk, hy k hk]
    cases x.contains k <;> simp
  · intro k hk
    rw [TrieSet.contains_difference law hys hcommon hk,
      TrieSet.contains_intersection law hxs hys hk, hx k hk, hy k hk]
    cases y.contains k <;> simp

include lawValue

theorem matches_iff_project (hx : x.WellFormed ok okValue) (hy : y.WellFormed ok okValue)
    (h : Divides ok x y common left right) :
    Matches ok x y ↔ (x.project common == y.project common) = true := by
  have hc := h.common_wellFormed
  rw [beq_iff_agree law (hx.project law hc) (hy.project law hc) lawValue]
  constructor
  · intro hmatch k hk
    rw [get?_project law hx.trie hc hk, get?_project law hy.trie hc hk, h.contains_common k hk,
      contains, contains]
    rcases hv : x.get? k with _ | v <;> rcases hw : y.get? k with _ | w
    · exact .none
    · exact .none
    · exact .none
    · exact .some (hmatch k hk v w hv hw)
  · intro hagree k hk v w hv hw
    have hrel := hagree k hk
    rw [get?_project law hx.trie hc hk, get?_project law hy.trie hc hk, h.contains_common k hk,
      contains, contains, hv, hw] at hrel
    cases hrel with
    | some heq => exact heq

/-- **The parts of two maps that match make up the first one updated with the second.** -/
theorem rejoin (hx : x.WellFormed ok okValue) (hy : y.WellFormed ok okValue)
    (h : Divides ok x y common left right) (hmatch : Matches ok x y) :
    (((x.project common).update (x.project left)).update (y.project right) == x.update y) =
      true := by
  have hxc := hx.project law h.common_wellFormed
  have hxl := hx.project law h.left_wellFormed
  have hyr := hy.project law h.right_wellFormed
  have hxcl := hxc.update law hxl
  rw [beq_iff_agree law (hxcl.update law hyr) (hx.update law hy) lawValue]
  intro k hk
  rw [get?_update law hxcl.trie hyr.trie hk, get?_update law hxc.trie hxl.trie hk,
    get?_update law hx.trie hy.trie hk, get?_project law hx.trie h.common_wellFormed hk,
    get?_project law hx.trie h.left_wellFormed hk, get?_project law hy.trie h.right_wellFormed hk,
    h.contains_common k hk, h.contains_left k hk, h.contains_right k hk, contains, contains]
  rcases hv : x.get? k with _ | v <;> rcases hw : y.get? k with _ | w
  · exact .none
  · exact .some (lawValue.refl (hy.okValue_of_get? law hk hw))
  · exact .some (lawValue.refl (hx.okValue_of_get? law hk hv))
  · exact .some (hmatch k hk v w hv hw)

/-- Maps with the same keys match exactly when they are equal. -/
theorem matches_iff_beq (hx : x.WellFormed ok okValue) (hy : y.WellFormed ok okValue)
    (hkeys : ∀ k, ok k → x.contains k = y.contains k) :
    Matches ok x y ↔ (x == y) = true := by
  rw [beq_iff_agree law hx hy lawValue]
  constructor
  · intro hmatch k hk
    have hsame := hkeys k hk
    rw [contains, contains] at hsame
    rcases hv : x.get? k with _ | v <;> rcases hw : y.get? k with _ | w <;>
      simp only [hv, hw, Option.isSome_none, Option.isSome_some, reduceCtorEq] at hsame
    · exact .none
    · exact .some (hmatch k hk v w hv hw)
  · intro hagree k hk v w hv hw
    have hrel := hagree k hk
    rw [hv, hw] at hrel
    cases hrel with
    | some heq => exact heq

/-- A map updated with one that has all its keys is the other one. -/
theorem update_of_contains (hx : x.WellFormed ok okValue) (hy : y.WellFormed ok okValue)
    (hkeys : ∀ k, ok k → x.contains k = y.contains k) : (x.update y == y) = true := by
  apply beq_of_get?_eq law lawValue (hx.update law hy) hy
  intro k hk
  have hsame := hkeys k hk
  rw [get?_update law hx.trie hy.trie hk]
  rcases hw : y.get? k with _ | w
  · rw [contains, contains, hw, Option.isSome_none, Option.isSome_eq_false_iff,
      Option.isNone_iff_eq_none] at hsame
    rw [hsame]
    rfl
  · rfl

/-- Updates that share no key can be made in either order. -/
theorem update_comm {a b : TrieMap κ ν} (hp : p.WellFormed ok okValue)
    (ha : a.WellFormed ok okValue) (hb : b.WellFormed ok okValue)
    (hdisjoint : ∀ k, ok k → (a.contains k && b.contains k) = false) :
    ((p.update a).update b == (p.update b).update a) = true := by
  have hpa := hp.update law ha
  have hpb := hp.update law hb
  apply beq_of_get?_eq law lawValue (hpa.update law hb) (hpb.update law ha)
  intro k hk
  have hnot := hdisjoint k hk
  rw [get?_update law hpa.trie hb.trie hk, get?_update law hp.trie ha.trie hk,
    get?_update law hpb.trie ha.trie hk, get?_update law hp.trie hb.trie hk]
  rcases hv : a.get? k with _ | v <;> rcases hw : b.get? k with _ | w
  · rfl
  · rfl
  · rfl
  · simp [contains, hv, hw] at hnot

end TrieMap

end TrieCollections
