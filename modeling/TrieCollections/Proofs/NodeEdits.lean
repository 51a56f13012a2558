/-
  TrieCollections/Proofs/NodeEdits.lean
  =====================================
  **What the three operations do to a well-formed node.**  Each of them follows the
  stream of one key.  As the entries were placed by the same streams, the entry under the
  key is where the walk ends, or nowhere:

    * `find?` gives the entry that the list of entries has under the key;
    * `insert` places the entry, and the node is well-formed again;
    * `remove` takes out what `find?` finds, and what is left is well-formed again.

  On a branch the walk goes on in one slot, and its result is put back there.  The entries
  of the other slots have other keys, so the result for the slot's node is the result for
  the whole branch (`Placed.frame`).
-/
import TrieCollections.Proofs.NodeShape

namespace TrieCollections

namespace Node

variable {ε κ : Type} [BEq κ] [Hashed κ] [Keyed ε κ] {ok : κ → Prop}

/-! ### Looking up -/

/-- **Lookup finds what is there.**  With the hash and the stream of a key, it gives the
    entry under that key. -/
theorem WellFormed.find?_eq (law : LawfulOn ok) {depth : Nat} {node : Node ε}
    (h : node.WellFormed ok depth) {k : κ} (hk : ok k) :
    node.find? (hashSeeded · k) (hashValue k) (fun e => k == Keyed.key e) (homeStream k depth) =
      entryUnder k node.entries := by
  induction h with
  | @leaf depth e hash deep stored =>
    rw [find?, entries_leaf, entryUnder_cons]
    rcases hkey : (k == Keyed.key e) with _ | _
    · simp [entryUnder]
    · have hhash : hash = hashValue k :=
        stored.hash.trans (law.hashValue_congr hk stored.lawful hkey).symm
      simp [hhash]
  | collision two stored distinct => rw [find?, entries_collision, entryUnder]
  | @branch depth kids deep exact two below routed ih =>
    have hwf : (Node.branch kids).WellFormed ok depth := .branch deep exact two below routed
    obtain ⟨others, hothers, haround⟩ := entries_around kids (homeSlot k depth)
    have hne : ∀ p ∈ others, (k == Keyed.key p.1) = false := by
      intro p hp
      obtain ⟨j, kid, hj, hget, hp⟩ := hothers p hp
      exact hwf.ne_of_slot_ne law hk hget hj hp
    have hentries : entryUnder k (Node.branch kids).entries =
        entryUnder k (entriesOf (kids.get? (homeSlot k depth))) := by
      rw [entryUnder_perm law (fun p hp => (hwf.stored p hp).lawful) (hwf.distinct law) hk
        (haround kids exact fun _ _ => rfl), entryUnder_append hne]
    rw [find?_branch, next_homeStream, hentries]
    rcases hget : kids.get? (homeSlot k depth) with _ | kid
    · rfl
    · rw [Option.bind_some, entriesOf_some]
      exact ih _ kid hget

/-! ### Inserting -/

/-- In a list of collisions the new entry takes the place of the one with its key, or the
    end. -/
theorem placed_insertChain (law : LawfulOn ok) {e : ε} (he : ok (Keyed.key e)) :
    ∀ {es : List (ε × UInt64)}, (∀ p ∈ es, Stored ok p) → DistinctKeys es →
      Placed (e, hashValue (Keyed.key e)) es (insertChain e (hashValue (Keyed.key e)) es).1
        (insertChain e (hashValue (Keyed.key e)) es).2 := by
  intro es
  induction es with
  | nil =>
    intro _ _
    exact .fresh (fun p hp => absurd hp List.not_mem_nil) (List.Perm.refl _)
  | cons p rest ih =>
    intro hs hd
    obtain ⟨old, oldHash⟩ := p
    have hold : Stored ok (old, oldHash) := hs _ List.mem_cons_self
    rw [insertChain]
    split
    · next hkey =>
      -- the stored hash stays: it is that of the new key as well
      have hhash : oldHash = hashValue (Keyed.key e) :=
        hold.hash.trans (law.hashValue_congr he hold.lawful hkey).symm
      rw [hhash]
      exact .inPlaceOf hkey (List.Perm.refl _) (List.Perm.refl _)
    · next hkey =>
      have hrest := ih (fun q hq => hs q (List.mem_cons_of_mem _ hq)) (List.pairwise_cons.mp hd).2
      refine hrest.frame ?_ (List.perm_append_singleton (old, oldHash) rest).symm
        (List.perm_append_singleton _ _).symm
      intro q hq
      rw [List.mem_singleton] at hq
      subst hq
      simpa using hkey

theorem wellFormed_fork {old new : ε × UInt64} (hold : Stored ok old) (hnew : Stored ok new)
    {depth : Nat} (hdeep : depth < maxDepth)
    (hslot : homeSlot (Keyed.key old.1) depth ≠ homeSlot (Keyed.key new.1) depth) :
    (branch ((Sparse.unit (homeSlot (Keyed.key old.1) depth) (leaf old.1 old.2)).populate
      (homeSlot (Keyed.key new.1) depth) (leaf new.1 new.2))).WellFormed ok depth ∧
    (branch ((Sparse.unit (homeSlot (Keyed.key old.1) depth) (leaf old.1 old.2)).populate
      (homeSlot (Keyed.key new.1) depth) (leaf new.1 new.2))).entries.Perm [new, old] := by
  have hunit := Sparse.exact_unit (homeSlot (Keyed.key old.1) depth) (leaf old.1 old.2)
  have hexact := Sparse.exact_populate hunit (homeSlot (Keyed.key new.1) depth)
    (leaf new.1 new.2)
  obtain ⟨others, -, haround⟩ := entries_around
    (Sparse.unit (homeSlot (Keyed.key old.1) depth) (leaf old.1 old.2))
    (homeSlot (Keyed.key new.1) depth)
  -- before the second slot is filled, the old entry is all there is
  have hothers : others.Perm [old] := by
    have h := haround _ hunit fun _ _ => rfl
    rw [Sparse.get?_unit, if_neg hslot.symm, entries_branch, Sparse.unit,
      List.flatMap_singleton, entries_leaf] at h
    exact h.symm
  have hentries := haround _ hexact fun j hj => by rw [Sparse.get?_populate hunit, if_neg hj]
  rw [Sparse.get?_unit_populate hslot, if_pos rfl, entriesOf_some, entries_leaf] at hentries
  have hperm := hentries.trans (hothers.append_left _)
  refine ⟨.branch hdeep hexact ?_ ?_ ?_, hperm⟩
  · rw [hperm.length_eq]
    exact Nat.le_refl 2
  · intro i kid hget
    rw [Sparse.get?_unit_populate hslot] at hget
    split at hget
    · exact Option.some.inj hget ▸ .leaf hdeep hnew
    · split at hget
      · exact Option.some.inj hget ▸ .leaf hdeep hold
      · exact absurd hget (by simp)
  · intro i kid hget p hp
    rw [Sparse.get?_unit_populate hslot] at hget
    split at hget
    · next hi =>
      rw [← Option.some.inj hget, entries_leaf, List.mem_singleton] at hp
      rw [hp, hi]
    · split at hget
      · next hi =>
        rw [← Option.some.inj hget, entries_leaf, List.mem_singleton] at hp
        rw [hp, hi]
      · exact absurd hget (by simp)

theorem wellFormed_unit {node : Node ε} {depth : Nat} (hdeep : depth < maxDepth)
    (h : node.WellFormed ok (depth + 1)) (htwo : 2 ≤ node.entries.length) {i : Slot}
    (hrouted : ∀ p ∈ node.entries, homeSlot (Keyed.key p.1) depth = i) :
    (branch (.unit i node)).WellFormed ok depth := by
  have hget : ∀ j kid, (Sparse.unit i node).get? j = some kid → j = i ∧ node = kid := by
    intro j kid hget
    rw [Sparse.get?_unit] at hget
    split at hget
    · next hj => exact ⟨hj, Option.some.inj hget⟩
    · exact absurd hget (by simp)
  refine .branch hdeep (Sparse.exact_unit i node) ?_ ?_ ?_
  · rwa [entries_branch, Sparse.unit, List.flatMap_singleton]
  · intro j kid hkid
    obtain ⟨-, rfl⟩ := hget j kid hkid
    exact h
  · intro j kid hkid
    obtain ⟨rfl, rfl⟩ := hget j kid hkid
    exact hrouted

/-- **Two entries with different keys can be told apart or kept in one list.**  The node
    for them stands `depth` levels down, with `levels` more to go to the full depth. -/
theorem wellFormed_separate (law : LawfulOn ok) {old new : ε × UInt64} (hold : Stored ok old)
    (hnew : Stored ok new) (hne : (Keyed.key new.1 == Keyed.key old.1) = false) :
    ∀ levels depth, depth + levels = maxDepth →
      (separate levels old (homeStream (Keyed.key old.1) depth) new
        (homeStream (Keyed.key new.1) depth)).WellFormed ok depth ∧
      (separate levels old (homeStream (Keyed.key old.1) depth) new
        (homeStream (Keyed.key new.1) depth)).entries.Perm [new, old] := by
  intro levels
  induction levels with
  | zero =>
    intro depth hdepth
    obtain rfl : depth = maxDepth := hdepth
    rw [separate, entries_collision]
    refine ⟨.collision (Nat.le_refl 2) ?_ ?_, List.Perm.swap _ _ _⟩
    · intro p hp
      rcases List.mem_cons.mp hp with rfl | hp
      · exact hold
      · rw [List.mem_singleton.mp hp]
        exact hnew
    · refine List.pairwise_cons.mpr ⟨?_, List.pairwise_singleton ..⟩
      intro p hp
      rw [List.mem_singleton.mp hp]
      exact ⟨by rw [law.beq_comm hold.lawful hnew.lawful]; exact hne, hne⟩
  | succ levels ih =>
    intro depth hdepth
    have hdeep : depth < maxDepth := by omega
    rw [separate, next_homeStream, next_homeStream]
    simp only
    split
    · next hslot =>
      -- one slot for both: they are told apart below it
      obtain ⟨hwf, hperm⟩ := ih (depth + 1) (by omega)
      refine ⟨wellFormed_unit hdeep hwf ?_ ?_, ?_⟩
      · rw [hperm.length_eq]
        exact Nat.le_refl 2
      · intro p hp
        rcases List.mem_cons.mp (hperm.mem_iff.mp hp) with rfl | hp
        · exact hslot.symm
        · rw [List.mem_singleton.mp hp]
      · rw [entries_branch, Sparse.unit, List.flatMap_singleton]
        exact hperm
    · next hslot => exact wellFormed_fork hold hnew hdeep hslot

/-- What places an entry among those of its slot places it in the branch. -/
theorem WellFormed.place (law : LawfulOn ok) {depth : Nat} {kids kids' : Sparse (Node ε)}
    (h : (Node.branch kids).WellFormed ok depth) {e : ε} (he : ok (Keyed.key e))
    (hexact : kids'.Exact)
    (hsame : ∀ j, j ≠ homeSlot (Keyed.key e) depth → kids'.get? j = kids.get? j)
    {kid' : Node ε} (hget : kids'.get? (homeSlot (Keyed.key e) depth) = some kid')
    (hwf : kid'.WellFormed ok (depth + 1)) {replaced : Option ε}
    (hplaced : Placed (e, hashValue (Keyed.key e))
      (entriesOf (kids.get? (homeSlot (Keyed.key e) depth))) kid'.entries replaced) :
    (Node.branch kids').WellFormed ok depth ∧
      Placed (e, hashValue (Keyed.key e)) (Node.branch kids).entries (Node.branch kids').entries
        replaced := by
  obtain ⟨others, hothers, haround⟩ := entries_around kids (homeSlot (Keyed.key e) depth)
  have hafter := haround kids' hexact hsame
  rw [hget, entriesOf_some] at hafter
  have hbranch : Placed (e, hashValue (Keyed.key e)) (Node.branch kids).entries
      (Node.branch kids').entries replaced := by
    refine hplaced.frame ?_ ?_ hafter
    · intro p hp
      obtain ⟨j, kid, hj, hkid, hp⟩ := hothers p hp
      exact h.ne_of_slot_ne law he hkid hj hp
    · cases h with
      | branch deep exact two below routed => exact haround kids exact fun _ _ => rfl
  refine ⟨?_, hbranch⟩
  obtain ⟨hbelow', hrouted'⟩ := h.edit hsame
    (by
      intro kid hkid
      rw [hget] at hkid
      exact Option.some.inj hkid ▸ hwf)
    (by
      intro kid hkid p hp
      rw [hget] at hkid
      rw [← Option.some.inj hkid] at hp
      rcases hplaced.mem_after hp with rfl | hp
      · rfl
      · rcases hold : kids.get? (homeSlot (Keyed.key e) depth) with _ | old
        · rw [hold] at hp
          exact absurd hp List.not_mem_nil
        · rw [hold, entriesOf_some] at hp
          cases h with
          | branch deep exact two below routed => exact routed _ old hold p hp)
  cases h with
  | branch deep exact two below routed =>
    refine .branch deep hexact ?_ hbelow' hrouted'
    have := hbranch.length_after
    omega

/-- **Insertion places the entry and keeps the node well-formed.** -/
theorem WellFormed.insert (law : LawfulOn ok) {depth : Nat} {node : Node ε}
    (h : node.WellFormed ok depth) {e : ε} (he : ok (Keyed.key e)) :
    (node.insert e (hashValue (Keyed.key e)) depth
      (homeStream (Keyed.key e) depth)).1.WellFormed ok depth ∧
    Placed (e, hashValue (Keyed.key e)) node.entries
      (node.insert e (hashValue (Keyed.key e)) depth (homeStream (Keyed.key e) depth)).1.entries
      (node.insert e (hashValue (Keyed.key e)) depth (homeStream (Keyed.key e) depth)).2 := by
  have hnew : Stored ok (e, hashValue (Keyed.key e)) := ⟨he, rfl⟩
  induction h with
  | @leaf depth old oldHash deep stored =>
    obtain rfl : oldHash = hashValue (Keyed.key old) := stored.hash
    rw [Node.insert]
    split
    · next hkey =>
      rw [Bool.and_eq_true, beq_iff_eq] at hkey
      obtain ⟨hhash, hkey⟩ := hkey
      rw [entries_leaf, entries_leaf, hhash]
      exact ⟨.leaf deep hnew, .inPlaceOf hkey (List.Perm.refl _) (List.Perm.refl _)⟩
    · next hkey =>
      -- equal keys would have had equal hashes
      have hne : (Keyed.key e == Keyed.key old) = false := by
        apply Bool.eq_false_iff.mpr
        intro heq
        rw [law.hashValue_congr he stored.lawful heq] at hkey
        simp [heq] at hkey
      obtain ⟨hwf, hperm⟩ := wellFormed_separate law stored hnew hne (maxDepth - depth) depth
        (by omega)
      refine ⟨hwf, .fresh ?_ ?_⟩
      · intro p hp
        rw [entries_leaf, List.mem_singleton] at hp
        rw [hp]
        exact hne
      · rw [entries_leaf]
        exact hperm
  | @collision es two stored distinct =>
    have hplaced := placed_insertChain law he stored distinct
    rw [Node.insert, entries_collision]
    simp only [entries_collision]
    refine ⟨.collision ?_ ?_ ?_, hplaced⟩
    · have := hplaced.length_after
      omega
    · intro p hp
      rcases hplaced.mem_after hp with rfl | hp
      · exact hnew
      · exact stored p hp
    · exact hplaced.distinct_after law he (fun p hp => (stored p hp).lawful) distinct
  | @branch depth kids deep exact two below routed ih =>
    have hwf : (Node.branch kids).WellFormed ok depth := .branch deep exact two below routed
    rw [insert_branch, next_homeStream]
    simp only
    rcases hget : kids.get? (homeSlot (Keyed.key e) depth) with _ | kid
    · -- the slot is vacant: a leaf goes there
      refine hwf.place law he (Sparse.exact_populate exact _ _) ?_ ?_ (.leaf deep hnew) ?_
      · intro j hj
        rw [Sparse.get?_populate exact, if_neg hj]
      · rw [Sparse.get?_populate exact, if_pos rfl, hget]
        rfl
      · rw [hget, entriesOf_none, entries_leaf]
        exact .fresh (fun p hp => absurd hp List.not_mem_nil) (List.Perm.refl _)
    · -- the entry goes into the node that is there
      obtain ⟨hkid, hplaced⟩ := ih _ kid hget
      refine hwf.place law he (Sparse.exact_replace exact _ _) ?_ ?_ hkid ?_
      · intro j hj
        rw [Sparse.get?_replace exact, if_neg hj]
      · rw [Sparse.get?_replace exact, if_pos rfl, hget]
        rfl
      · rw [hget, entriesOf_some]
        exact hplaced

/-! ### Removing -/

omit [BEq κ] [Hashed κ] [Keyed ε κ] in
/-- **Removal hands back what lookup finds**, in any node and along any stream. -/
theorem map_fst_remove (rehash : UInt64 → UInt64) (hash : UInt64) (isKey : ε → Bool)
    (node : Node ε) (stream : IndexStream) :
    (node.remove rehash hash isKey stream).map Prod.fst = node.find? rehash hash isKey stream := by
  fun_induction find? rehash hash isKey node stream with
  | case1 e h stream hkey => rw [remove, if_pos hkey]; rfl
  | case2 e h stream hkey => rw [remove, if_neg hkey]; rfl
  | case3 stream es => rw [remove, Option.map_map]; rfl
  | case4 stream kids hget => rw [remove_branch, hget]; rfl
  | case5 stream kids kid hget ih =>
    rw [remove_branch, hget, Option.bind_some, Option.map_map, ← ih]
    rfl

omit [BEq κ] [Hashed κ] [Keyed ε κ] in
/-- A list of collisions loses the entry that was found, whatever moves to its place. -/
theorem perm_removeChain {isKey : ε → Bool} {p : ε × UInt64} :
    ∀ {es : List (ε × UInt64)}, (es.find? fun q => isKey q.1) = some p →
      es.Perm (p :: removeChain isKey es) := by
  intro es
  induction es with
  | nil => intro h; exact absurd h (by simp)
  | cons q rest ih =>
    intro h
    rw [List.find?_cons] at h
    rw [removeChain]
    split at h
    · next hq =>
      rw [if_pos hq, Option.some.inj h]
      refine List.Perm.cons p ?_
      rcases List.eq_nil_or_concat rest with rfl | ⟨init, last, rfl⟩
      · exact List.Perm.refl _
      · simp
    · next hq =>
      rw [if_neg (by simpa using hq)]
      exact ((ih h).cons q).trans (List.Perm.swap _ _ _)

omit [BEq κ] [Hashed κ] [Keyed ε κ] in
theorem entriesOf_ofChain (es : List (ε × UInt64)) : entriesOf (ofChain es) = es := by
  rcases es with _ | ⟨⟨e, hash⟩, _ | ⟨q, rest⟩⟩ <;> simp [ofChain]

omit [BEq κ] [Hashed κ] [Keyed ε κ] in
/-- Collapsing a branch loses no entry. -/
theorem entriesOf_ofKids (kids : Sparse (Node ε)) :
    entriesOf (ofKids kids) = (branch kids).entries := by
  unfold ofKids
  split
  · next hc => rw [entries_branch, hc]; rfl
  · next e hash hc => rw [entries_branch, hc]; simp
  · simp

/-- **A branch collapses to what a branch may hold.**  With two entries left it stays; with
    one left it is that entry's leaf, which comes up from below. -/
theorem wellFormed_ofKids {depth : Nat} {kids : Sparse (Node ε)} (hdeep : depth < maxDepth)
    (hexact : kids.Exact) (hbelow : ∀ i kid, kids.get? i = some kid → kid.WellFormed ok (depth + 1))
    (hrouted : ∀ i kid, kids.get? i = some kid →
      ∀ p ∈ kid.entries, homeSlot (Keyed.key p.1) depth = i)
    {node : Node ε} (h : ofKids kids = some node) : node.WellFormed ok depth := by
  have hkids : ∀ kid ∈ kids.children, kid.WellFormed ok (depth + 1) := by
    intro kid hkid
    obtain ⟨i, hi⟩ := (Sparse.mem_children_iff hexact).mp hkid
    exact hbelow i kid hi
  unfold ofKids at h
  split at h
  · exact absurd h (by simp)
  · next e hash hc =>
    rw [← Option.some.inj h]
    exact (hkids _ (by rw [hc]; exact List.mem_singleton_self _)).leaf_up
  · next hnil hleaf =>
    rw [← Option.some.inj h]
    refine .branch hdeep hexact ?_ hbelow hrouted
    rw [entries_branch]
    rcases hc : kids.children with _ | ⟨kid, _ | ⟨kid', rest⟩⟩
    · exact absurd hc hnil
    · -- a single child is no leaf, so it has two entries of its own
      have hkid := hkids kid (by rw [hc]; exact List.mem_singleton_self _)
      have hpos := hkid.length_pos
      have hone : kid.entries.length ≠ 1 := by
        intro hone
        obtain ⟨e, hash, rfl⟩ := hkid.eq_leaf hone
        exact hleaf e hash hc
      rw [List.flatMap_singleton]
      omega
    · -- each of two children has an entry
      have h₁ := (hkids kid (by rw [hc]; exact List.mem_cons_self)).length_pos
      have h₂ := (hkids kid'
        (by rw [hc]; exact List.mem_cons_of_mem _ List.mem_cons_self)).length_pos
      simp only [List.flatMap_cons, List.length_append]
      omega

theorem wellFormed_ofChain {es : List (ε × UInt64)} (hstored : ∀ p ∈ es, Stored ok p)
    (hdistinct : DistinctKeys es) {node : Node ε} (h : ofChain es = some node) :
    node.WellFormed ok maxDepth := by
  rcases es with _ | ⟨p, _ | ⟨q, rest⟩⟩
  · exact absurd h (by simp [ofChain])
  · rw [← Option.some.inj h]
    exact .leaf (Nat.le_refl _) (hstored p List.mem_cons_self)
  · rw [← Option.some.inj h]
    exact .collision (by simp) hstored hdistinct

/-- What takes an entry out of its slot takes it out of the branch. -/
theorem WellFormed.takeOut {depth : Nat} {kids kids' : Sparse (Node ε)}
    (h : (Node.branch kids).WellFormed ok depth) {k : κ} {hash : UInt64} {i : Slot}
    (hexact : kids'.Exact) (hsame : ∀ j, j ≠ i → kids'.get? j = kids.get? j) {kid : Node ε}
    (hkid : kids.get? i = some kid) {old : ε}
    (htaken : Taken k hash kid.entries (entriesOf (kids'.get? i)) (some old))
    (hbelow : ∀ kid', kids'.get? i = some kid' → kid'.WellFormed ok (depth + 1)) :
    Taken k hash (Node.branch kids).entries (entriesOf (ofKids kids')) (some old) ∧
      ∀ node', ofKids kids' = some node' → node'.WellFormed ok depth := by
  obtain ⟨others, -, haround⟩ := entries_around kids i
  cases h with
  | branch deep exact two below routed =>
    have hbefore := haround kids exact fun _ _ => rfl
    have hafter := haround kids' hexact hsame
    rw [hkid, entriesOf_some] at hbefore
    refine ⟨?_, ?_⟩
    · cases htaken with
      | found same was =>
        rw [entriesOf_ofKids]
        exact .found same
          (hbefore.trans ((was.append_right others).trans (hafter.symm.cons (old, hash))))
    · obtain ⟨hbelow', hrouted'⟩ :=
        (Node.WellFormed.branch deep exact two below routed).edit hsame hbelow
          (by
            intro kid' hkid' p hp
            refine routed i kid hkid p (htaken.mem_after ?_)
            rwa [hkid', entriesOf_some])
      intro node' hnode'
      exact wellFormed_ofKids deep hexact hbelow' hrouted' hnode'

/-- **Removal takes out the entry and leaves a well-formed node**, or nothing when it was
    the only one. -/
theorem WellFormed.remove (law : LawfulOn ok) {depth : Nat} {node : Node ε}
    (h : node.WellFormed ok depth) {k : κ} (hk : ok k) {old : ε} {rest : Option (Node ε)}
    (hremove : node.remove (hashSeeded · k) (hashValue k) (fun e => k == Keyed.key e)
      (homeStream k depth) = some (old, rest)) :
    Taken k (hashValue k) node.entries (entriesOf rest) (some old) ∧
      ∀ node', rest = some node' → node'.WellFormed ok depth := by
  induction h generalizing rest with
  | @leaf depth e hash deep stored =>
    rw [Node.remove] at hremove
    split at hremove
    · next hkey =>
      rw [Bool.and_eq_true, beq_iff_eq] at hkey
      obtain ⟨rfl, rfl⟩ := Prod.ext_iff.mp (Option.some.inj hremove)
      obtain ⟨rfl, hkey⟩ := hkey
      refine ⟨.found hkey ?_, fun _ h => absurd h (by simp)⟩
      rw [entries_leaf]
      exact List.Perm.refl _
    · exact absurd hremove (by simp)
  | @collision es two stored distinct =>
    rw [Node.remove] at hremove
    obtain ⟨p, hfind, hdone⟩ := Option.map_eq_some_iff.mp hremove
    obtain ⟨rfl, rfl⟩ := Prod.ext_iff.mp hdone
    have hkey : (k == Keyed.key p.1) = true := by simpa using List.find?_some hfind
    have hperm : es.Perm (p :: removeChain (fun e => k == Keyed.key e) es) :=
      perm_removeChain hfind
    have hp := stored p (List.mem_of_find?_eq_some hfind)
    have hpair : (p.1, hashValue k) = p :=
      Prod.ext rfl (hp.hash.trans (law.hashValue_congr hk hp.lawful hkey).symm).symm
    refine ⟨.found hkey ?_, ?_⟩
    · rw [entries_collision, entriesOf_ofChain, hpair]
      exact hperm
    · intro node' hnode'
      refine wellFormed_ofChain ?_ ?_ hnode'
      · intro q hq
        exact stored q (hperm.mem_iff.mpr (List.mem_cons_of_mem _ hq))
      · exact (List.pairwise_cons.mp (distinct.perm hperm)).2
  | @branch depth kids deep exact two below routed ih =>
    rw [remove_branch, next_homeStream] at hremove
    obtain ⟨kid, hget, hremove⟩ := Option.bind_eq_some_iff.mp hremove
    obtain ⟨⟨old', rest'⟩, hkid, hdone⟩ := Option.map_eq_some_iff.mp hremove
    obtain ⟨rfl, rfl⟩ := Prod.ext_iff.mp hdone
    obtain ⟨htaken, hrest⟩ := ih _ kid hget hkid
    have hwf : (Node.branch kids).WellFormed ok depth := .branch deep exact two below routed
    rcases rest' with _ | kid'
    · -- nothing is left in the slot: it is vacated
      have hvacant : (kids.erase (homeSlot k depth)).get? (homeSlot k depth) = none := by
        rw [Sparse.get?_erase, if_pos rfl]
      refine hwf.takeOut (Sparse.exact_erase exact _) ?_ hget ?_ ?_
      · intro j hj
        rw [Sparse.get?_erase, if_neg hj]
      · rwa [hvacant]
      · rwa [hvacant]
    · -- what is left goes back into the slot
      have hback : (kids.replace (homeSlot k depth) kid').get? (homeSlot k depth) = some kid' := by
        rw [Sparse.get?_replace exact, if_pos rfl, hget]
        rfl
      refine hwf.takeOut (Sparse.exact_replace exact _ _) ?_ hget ?_ ?_
      · intro j hj
        rw [Sparse.get?_replace exact, if_neg hj]
      · rwa [hback]
      · rwa [hback]

end Node

end TrieCollections
