/-
  TrieCollections/Proofs/EntryLists.lean
  ======================================
  **The entries of a trie as a list.**  What a trie holds is a list of entries with the
  hashes of their keys, in which no two keys are equal (`DistinctKeys`).  The order of
  the list carries no information: an entry is found under a key wherever it stands
  (`entryUnder_perm`).

  An insertion *places* an entry in such a list and a removal *takes* one out.  `Placed`
  and `Taken` say up to order what that does to the list and what is handed back.  From
  them follow the law of each edit for lookups, the change in length, and the change in
  the combined hash.
-/
import Mathlib.Data.List.Forall2
import TrieCollections.Proofs.KeyLaws
import TrieCollections.Trie.Node

namespace TrieCollections

variable {ε κ : Type} [BEq κ] [Keyed ε κ]

/-! ### Looking up in a list -/

def entryUnder (k : κ) (es : List (ε × UInt64)) : Option ε :=
  (es.find? fun p => k == Keyed.key p.1).map Prod.fst

/-- No two entries of the list have equal keys. -/
def DistinctKeys (es : List (ε × UInt64)) : Prop :=
  es.Pairwise fun p q =>
    (Keyed.key p.1 == Keyed.key q.1) = false ∧ (Keyed.key q.1 == Keyed.key p.1) = false

/-- An entry with a lawful key and the hash of that key. -/
structure Stored [Hashed κ] (ok : κ → Prop) (p : ε × UInt64) : Prop where
  lawful : ok (Keyed.key p.1)
  hash : p.2 = hashValue (Keyed.key p.1)

theorem entryUnder_cons (k : κ) (p : ε × UInt64) (es : List (ε × UInt64)) :
    entryUnder k (p :: es) = if k == Keyed.key p.1 then some p.1 else entryUnder k es := by
  rw [entryUnder, List.find?_cons]
  split <;> simp_all [entryUnder]

theorem entryUnder_eq_none_iff {k : κ} {es : List (ε × UInt64)} :
    entryUnder k es = none ↔ ∀ p ∈ es, (k == Keyed.key p.1) = false := by
  simp [entryUnder]

theorem entryUnder_append {k : κ} {es others : List (ε × UInt64)}
    (h : ∀ p ∈ others, (k == Keyed.key p.1) = false) :
    entryUnder k (es ++ others) = entryUnder k es := by
  have hnone : (others.find? fun p => k == Keyed.key p.1) = none := by
    rw [List.find?_eq_none]
    intro p hp
    simp [h p hp]
  rw [entryUnder, List.find?_append, hnone, Option.or_none, entryUnder]

theorem mem_of_entryUnder {k : κ} {es : List (ε × UInt64)} {e : ε}
    (h : entryUnder k es = some e) : ∃ hash, (e, hash) ∈ es ∧ (k == Keyed.key e) = true := by
  obtain ⟨⟨e', hash⟩, hfind, rfl⟩ := Option.map_eq_some_iff.mp h
  exact ⟨hash, List.mem_of_find?_eq_some hfind, by simpa using List.find?_some hfind⟩

theorem DistinctKeys.perm {es es' : List (ε × UInt64)} (hd : DistinctKeys es) (h : es.Perm es') :
    DistinctKeys es' :=
  (h.pairwise_iff fun hpq => ⟨hpq.2, hpq.1⟩).mp hd

section Lawful

variable [Hashed κ] {ok : κ → Prop} (law : LawfulOn ok) {k : κ} {es : List (ε × UInt64)}

include law

/-- Under a key of a list without equal keys stands the one entry that has it. -/
theorem entryUnder_eq_some_iff (hs : ∀ p ∈ es, ok (Keyed.key p.1)) (hd : DistinctKeys es)
    (hk : ok k) {e : ε} :
    entryUnder k es = some e ↔ ∃ hash, (e, hash) ∈ es ∧ (k == Keyed.key e) = true := by
  constructor
  · exact mem_of_entryUnder
  · rintro ⟨hash, hmem, heq⟩
    induction es with
    | nil => exact absurd hmem List.not_mem_nil
    | cons p es ih =>
      have hs' : ∀ q ∈ es, ok (Keyed.key q.1) := fun q hq => hs q (List.mem_cons_of_mem _ hq)
      obtain ⟨hp, hd⟩ := List.pairwise_cons.mp hd
      rw [entryUnder_cons]
      rcases List.mem_cons.mp hmem with rfl | hmem
      · simp [heq]
      · -- the head has another key, since it does not share one with the entry
        have hpe := (hp _ hmem).2
        have hkp : (k == Keyed.key p.1) = false := by
          rw [law.beq_congr hk (hs' _ hmem) (hs p List.mem_cons_self) heq]
          exact hpe
        simp [hkp, ih hs' hd hmem]

theorem entryUnder_perm (hs : ∀ p ∈ es, ok (Keyed.key p.1)) (hd : DistinctKeys es) (hk : ok k)
    {es' : List (ε × UInt64)} (h : es.Perm es') : entryUnder k es = entryUnder k es' := by
  have hs' : ∀ p ∈ es', ok (Keyed.key p.1) := fun p hp => hs p (h.mem_iff.mpr hp)
  apply Option.ext
  intro e
  rw [entryUnder_eq_some_iff law hs hd hk, entryUnder_eq_some_iff law hs' (hd.perm h) hk]
  simp only [h.mem_iff]

end Lawful

/-! ### The combined hash -/

theorem xor_cancel (w v : UInt64) : w ^^^ v ^^^ w = v := by
  rw [UInt64.xor_comm w v, UInt64.xor_assoc, UInt64.xor_self, UInt64.xor_zero]

def xorAll (ws : List UInt64) : UInt64 := ws.foldr (· ^^^ ·) 0

theorem xorAll_perm {ws vs : List UInt64} (h : ws.Perm vs) : xorAll ws = xorAll vs := by
  apply h.foldr_eq'
  intro x _ y _ z
  rw [← UInt64.xor_assoc, ← UInt64.xor_assoc, UInt64.xor_comm x y]

omit [BEq κ] in
/-- The xor of what the entries of a list contribute. -/
def combined (es : List (ε × UInt64)) : UInt64 :=
  xorAll (es.map fun p => Keyed.contribution p.2 p.1)

omit [BEq κ] in
theorem combined_cons (p : ε × UInt64) (es : List (ε × UInt64)) :
    combined (p :: es) = Keyed.contribution p.2 p.1 ^^^ combined es := rfl

omit [BEq κ] in
theorem combined_perm {es es' : List (ε × UInt64)} (h : es.Perm es') :
    combined es = combined es' := xorAll_perm (h.map _)

/-! ### Placing an entry -/

/-- `after` is `before` with the entry `x`, which took the place of the entry handed
    back. -/
inductive Placed (x : ε × UInt64) (before after : List (ε × UInt64)) : Option ε → Prop
  | fresh (new : ∀ p ∈ before, (Keyed.key x.1 == Keyed.key p.1) = false)
      (now : after.Perm (x :: before)) : Placed x before after none
  | inPlaceOf {old : ε} {rest : List (ε × UInt64)}
      (same : (Keyed.key x.1 == Keyed.key old) = true)
      (was : before.Perm ((old, x.2) :: rest)) (now : after.Perm (x :: rest)) :
      Placed x before after (some old)

namespace Placed

variable {x : ε × UInt64} {before after : List (ε × UInt64)} {replaced : Option ε}

theorem frame (h : Placed x before after replaced) {others before' after' : List (ε × UInt64)}
    (hothers : ∀ p ∈ others, (Keyed.key x.1 == Keyed.key p.1) = false)
    (hb : before'.Perm (before ++ others)) (ha : after'.Perm (after ++ others)) :
    Placed x before' after' replaced := by
  cases h with
  | fresh new now =>
    refine .fresh ?_ ?_
    · intro p hp
      rcases List.mem_append.mp (hb.mem_iff.mp hp) with h | h
      · exact new p h
      · exact hothers p h
    · exact ha.trans ((now.append_right others).trans (hb.symm.cons x))
  | inPlaceOf same was now =>
    exact .inPlaceOf same (hb.trans (was.append_right others)) (ha.trans (now.append_right others))

/-- The entry is there afterwards, and so is everything but what it replaced. -/
theorem mem_after (h : Placed x before after replaced) {p : ε × UInt64} (hp : p ∈ after) :
    p = x ∨ p ∈ before := by
  cases h with
  | fresh new now => exact List.mem_cons.mp (now.mem_iff.mp hp)
  | inPlaceOf same was now =>
    rcases List.mem_cons.mp (now.mem_iff.mp hp) with h | h
    · exact .inl h
    · exact .inr (was.mem_iff.mpr (List.mem_cons_of_mem _ h))

theorem length_after (h : Placed x before after replaced) :
    after.length = before.length + if replaced.isNone then 1 else 0 := by
  cases h with
  | fresh new now => simpa using now.length_eq
  | inPlaceOf same was now =>
    have hw := was.length_eq
    have hn := now.length_eq
    simp only [List.length_cons] at hw hn
    simp [hw, hn]

theorem combined_fresh (h : Placed x before after none) :
    combined after = combined before ^^^ Keyed.contribution x.2 x.1 := by
  cases h with
  | fresh new now => rw [combined_perm now, combined_cons, UInt64.xor_comm]

theorem combined_inPlaceOf {old : ε} (h : Placed x before after (some old)) :
    combined after =
      combined before ^^^ Keyed.contribution x.2 old ^^^ Keyed.contribution x.2 x.1 := by
  cases h with
  | inPlaceOf same was now =>
    rw [combined_perm now, combined_perm was, combined_cons, combined_cons, xor_cancel,
      UInt64.xor_comm]

section Lawful

variable [Hashed κ] {ok : κ → Prop} (law : LawfulOn ok) (hx : ok (Keyed.key x.1))
  (hs : ∀ p ∈ before, ok (Keyed.key p.1)) (hd : DistinctKeys before)

include law hx hs hd

theorem distinct_after (h : Placed x before after replaced) : DistinctKeys after := by
  cases h with
  | fresh new now =>
    refine DistinctKeys.perm (List.pairwise_cons.mpr ⟨?_, hd⟩) now.symm
    intro p hp
    exact ⟨new p hp, by rw [law.beq_comm (hs p hp) hx]; exact new p hp⟩
  | @inPlaceOf old rest same was now =>
    have hd' := hd.perm was
    obtain ⟨hold, hrest⟩ := List.pairwise_cons.mp hd'
    have hokOld : ok (Keyed.key old) := hs (old, x.2) (was.mem_iff.mpr List.mem_cons_self)
    refine DistinctKeys.perm (List.pairwise_cons.mpr ⟨?_, hrest⟩) now.symm
    intro p hp
    have hokp : ok (Keyed.key p.1) := hs p (was.mem_iff.mpr (List.mem_cons_of_mem _ hp))
    have hxp : (Keyed.key x.1 == Keyed.key p.1) = false := by
      rw [law.beq_congr hx hokOld hokp same]
      exact (hold p hp).1
    exact ⟨hxp, by rw [law.beq_comm hokp hx]; exact hxp⟩

/-- **The law of insertion.**  The entry is found under its own key, and every other key
    finds what it found before. -/
theorem entryUnder_after (h : Placed x before after replaced) {k : κ} (hk : ok k) :
    entryUnder k after =
      if k == Keyed.key x.1 then some x.1 else entryUnder k before := by
  have hd' := h.distinct_after law hx hs hd
  have hs' : ∀ p ∈ after, ok (Keyed.key p.1) := by
    intro p hp
    rcases h.mem_after hp with rfl | hp
    · exact hx
    · exact hs p hp
  cases h with
  | fresh new now => rw [entryUnder_perm law hs' hd' hk now, entryUnder_cons]
  | @inPlaceOf old rest same was now =>
    have hokOld : ok (Keyed.key old) := hs (old, x.2) (was.mem_iff.mpr List.mem_cons_self)
    rw [entryUnder_perm law hs' hd' hk now, entryUnder_perm law hs hd hk was, entryUnder_cons,
      entryUnder_cons]
    rcases hkx : (k == Keyed.key x.1) with _ | _
    · have hko : (k == Keyed.key old) = false := by
        rw [law.beq_comm hk hokOld, ← law.beq_congr hx hokOld hk same, law.beq_comm hx hk]
        exact hkx
      simp [hko]
    · simp

theorem replaced_eq (h : Placed x before after replaced) :
    replaced = entryUnder (Keyed.key x.1) before := by
  cases h with
  | fresh new now => exact (entryUnder_eq_none_iff.mpr new).symm
  | inPlaceOf same was now =>
    symm
    rw [entryUnder_eq_some_iff law hs hd hx]
    exact ⟨x.2, was.mem_iff.mpr List.mem_cons_self, same⟩

end Lawful

end Placed

/-! ### Taking an entry out -/

/-- `after` is `before` without the entry under `k`, which is handed back. -/
inductive Taken (k : κ) (hash : UInt64) (before after : List (ε × UInt64)) : Option ε → Prop
  | absent (missing : ∀ p ∈ before, (k == Keyed.key p.1) = false) (now : after = before) :
      Taken k hash before after none
  | found {old : ε} (same : (k == Keyed.key old) = true)
      (was : before.Perm ((old, hash) :: after)) : Taken k hash before after (some old)

namespace Taken

variable {k : κ} {hash : UInt64} {before after : List (ε × UInt64)} {taken : Option ε}

theorem mem_after (h : Taken k hash before after taken) {p : ε × UInt64} (hp : p ∈ after) :
    p ∈ before := by
  cases h with
  | absent missing now => exact now ▸ hp
  | found same was => exact was.mem_iff.mpr (List.mem_cons_of_mem _ hp)

theorem length_after (h : Taken k hash before after taken) :
    after.length + (if taken.isSome then 1 else 0) = before.length := by
  cases h with
  | absent missing now => simp [now]
  | found same was => simpa using was.length_eq.symm

theorem combined_found {old : ε} (h : Taken k hash before after (some old)) :
    combined after = combined before ^^^ Keyed.contribution hash old := by
  cases h with
  | found same was =>
    rw [combined_perm was, combined_cons, xor_cancel]

section Lawful

variable [Hashed κ] {ok : κ → Prop} (law : LawfulOn ok) (hk : ok k)
  (hs : ∀ p ∈ before, ok (Keyed.key p.1)) (hd : DistinctKeys before)

include law hk hs hd

/-- **The law of removal.**  Nothing is found under the key any more, and every other key
    finds what it found before. -/
theorem entryUnder_after (h : Taken k hash before after taken) {k' : κ} (hk' : ok k') :
    entryUnder k' after = if k' == k then none else entryUnder k' before := by
  cases h with
  | absent missing now =>
    subst now
    rcases hkk : (k' == k) with _ | _
    · simp
    · rw [if_pos rfl, entryUnder_eq_none_iff]
      intro p hp
      rw [law.beq_congr hk' hk (hs p hp) hkk]
      exact missing p hp
  | @found old same was =>
    have hokOld : ok (Keyed.key old) := hs (old, hash) (was.mem_iff.mpr List.mem_cons_self)
    obtain ⟨hold, -⟩ := List.pairwise_cons.mp (hd.perm was)
    rw [entryUnder_perm law hs hd hk' was, entryUnder_cons]
    have hkey : (k' == Keyed.key old) = (k' == k) := by
      rw [law.beq_comm hk' hokOld, law.beq_comm hk' hk,
        law.beq_congr hokOld hk hk' (law.symm hk hokOld same)]
    rw [hkey]
    rcases hkk : (k' == k) with _ | _
    · simp
    · rw [if_pos rfl, entryUnder_eq_none_iff]
      intro p hp
      have hokp : ok (Keyed.key p.1) := hs p (was.mem_iff.mpr (List.mem_cons_of_mem _ hp))
      rw [law.beq_congr hk' hk hokp hkk, law.beq_congr hk hokOld hokp same]
      exact (hold p hp).1

theorem taken_eq (h : Taken k hash before after taken) : taken = entryUnder k before := by
  cases h with
  | absent missing now => exact (entryUnder_eq_none_iff.mpr missing).symm
  | found same was =>
    symm
    rw [entryUnder_eq_some_iff law hs hd hk]
    exact ⟨hash, was.mem_iff.mpr List.mem_cons_self, same⟩

end Lawful

end Taken

end TrieCollections
