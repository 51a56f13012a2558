/-
  TrieCollections/Proofs/TrieEdits.lean
  =====================================
  **What the edits do to a well-formed trie.**  A trie is well-formed when its root is, its
  size is the number of its entries, and its hash is the xor of what they contribute.  Every
  edit keeps it so.  The counters are kept up to date from what the edit of the root hands
  back, and `Placed` and `Taken` say that this is the entry that left the list.

  For lookups the edits have one law each: after an insertion the key finds the new entry
  (`get?_insert`), after a removal it finds nothing (`get?_remove`), and every other key
  finds what it found before.
-/
import TrieCollections.Proofs.NodeEdits
import TrieCollections.Trie.Merge
import TrieCollections.Trie.Sharing

namespace TrieCollections

namespace Trie

variable {ε κ : Type} [BEq κ] [Hashed κ] [Keyed ε κ]

omit [BEq κ] [Hashed κ] [Keyed ε κ] in
theorem entries_eq (t : Trie ε) : t.entries = Node.entriesOf t.root := by
  unfold entries
  rcases t.root with _ | node
  · rfl
  · rw [Node.entriesOf_some]

/-- The trie is as the operations keep it, with keys that satisfy `ok`. -/
structure WellFormed (ok : κ → Prop) (t : Trie ε) : Prop where
  nodes : ∀ node, t.root = some node → node.WellFormed ok 0
  size_eq : t.size = t.entries.length
  hash_eq : t.hash = combined t.entries

variable {ok : κ → Prop}

theorem wellFormed_empty : (empty : Trie ε).WellFormed ok :=
  ⟨fun _ h => absurd h (by simp [empty]), rfl, rfl⟩

namespace WellFormed

variable {t : Trie ε}

theorem stored (h : t.WellFormed ok) : ∀ p ∈ t.entries, Stored ok p := by
  intro p hp
  rw [entries_eq] at hp
  rcases hroot : t.root with _ | node
  · rw [hroot] at hp
    exact absurd hp List.not_mem_nil
  · rw [hroot, Node.entriesOf_some] at hp
    exact (h.nodes node hroot).stored p hp

theorem lawful (h : t.WellFormed ok) : ∀ p ∈ t.entries, ok (Keyed.key p.1) :=
  fun p hp => (h.stored p hp).lawful

theorem distinct (law : LawfulOn ok) (h : t.WellFormed ok) : DistinctKeys t.entries := by
  rw [entries_eq]
  rcases hroot : t.root with _ | node
  · exact List.Pairwise.nil
  · rw [Node.entriesOf_some]
    exact (h.nodes node hroot).distinct law

theorem root_eq_none_iff (h : t.WellFormed ok) : t.root = none ↔ t.size = 0 := by
  rw [h.size_eq, entries_eq]
  rcases hroot : t.root with _ | node
  · simp
  · have := (h.nodes node hroot).length_pos
    rw [Node.entriesOf_some]
    simp only [reduceCtorEq, false_iff]
    omega

theorem isSane (h : t.WellFormed ok) : t.isSane = true := by
  rw [Trie.isSane, h.size_eq]
  rcases hroot : t.root with _ | node
  · simp
  · simp [(h.nodes node hroot).isSane]

theorem mark (h : t.WellFormed ok) (stamps : Stamps) : (stamps.mark t).1.WellFormed ok := by
  unfold Stamps.mark
  split
  · exact ⟨h.nodes, h.size_eq, h.hash_eq⟩
  · exact h

variable (law : LawfulOn ok)

include law

/-! ### Looking up -/

theorem get?_eq (h : t.WellFormed ok) {k : κ} (hk : ok k) : t.get? k = entryUnder k t.entries := by
  rw [entries_eq, get?, getHashed?, lookup]
  rcases hroot : t.root with _ | node
  · rfl
  · rw [Node.entriesOf_some, Option.bind_some, ← homeStream_zero]
    exact (h.nodes node hroot).find?_eq law hk

/-- An entry is found under every key that equals its own. -/
theorem get?_eq_some_iff (h : t.WellFormed ok) {k : κ} (hk : ok k) {e : ε} :
    t.get? k = some e ↔ ∃ hash, (e, hash) ∈ t.entries ∧ (k == Keyed.key e) = true := by
  rw [h.get?_eq law hk, entryUnder_eq_some_iff law h.lawful (h.distinct law) hk]

/-- Looking up a stored entry with the hash stored for it is looking up its key. -/
theorem getHashed?_eq {s : Trie ε} (hs : s.WellFormed ok) {p : ε × UInt64} (hp : Stored ok p) :
    s.getHashed? p.2 (Keyed.key p.1) = entryUnder (Keyed.key p.1) s.entries := by
  rw [hp.hash]
  exact hs.get?_eq law hp.lawful

/-! ### Inserting -/

omit law in
/-- The counters after an entry came in. -/
theorem counted_fresh (h : t.WellFormed ok) {node : Node ε} (hwf : node.WellFormed ok 0)
    {x : ε × UInt64} (hplaced : Placed x t.entries node.entries none) :
    (⟨some node, t.size + 1, t.hash ^^^ Keyed.contribution x.2 x.1, none⟩ :
      Trie ε).WellFormed ok where
  nodes node' hnode' := Option.some.inj hnode' ▸ hwf
  size_eq := by
    show t.size + 1 = node.entries.length
    rw [h.size_eq, hplaced.length_after]
    rfl
  hash_eq := by
    show _ = combined node.entries
    rw [h.hash_eq, hplaced.combined_fresh]

omit law in
/-- The counters after an entry took the place of another one. -/
theorem counted_inPlaceOf (h : t.WellFormed ok) {node : Node ε} (hwf : node.WellFormed ok 0)
    {x : ε × UInt64} {old : ε} (hplaced : Placed x t.entries node.entries (some old)) :
    (⟨some node, t.size, t.hash ^^^ Keyed.contribution x.2 old ^^^ Keyed.contribution x.2 x.1,
      none⟩ : Trie ε).WellFormed ok where
  nodes node' hnode' := Option.some.inj hnode' ▸ hwf
  size_eq := by
    show t.size = node.entries.length
    rw [h.size_eq, hplaced.length_after]
    rfl
  hash_eq := by
    show _ = combined node.entries
    rw [h.hash_eq, hplaced.combined_inPlaceOf]

/-- **Insertion places the entry and keeps the counters right.** -/
theorem insert (h : t.WellFormed ok) {e : ε} (he : ok (Keyed.key e)) :
    (t.insert e).1.WellFormed ok ∧
      Placed (e, hashValue (Keyed.key e)) t.entries (t.insert e).1.entries (t.insert e).2 := by
  rw [Trie.insert, insertHashed]
  rcases hroot : t.root with _ | node
  · have hplaced : Placed (e, hashValue (Keyed.key e)) t.entries
        (Node.leaf e (hashValue (Keyed.key e))).entries none := by
      rw [entries_eq, hroot, Node.entries_leaf]
      exact .fresh (fun p hp => absurd hp List.not_mem_nil) (List.Perm.refl _)
    exact ⟨h.counted_fresh (.leaf (Nat.zero_le _) ⟨he, rfl⟩) hplaced, hplaced⟩
  · obtain ⟨hwf, hplaced⟩ := (h.nodes node hroot).insert law he
    have hentries : t.entries = node.entries := by rw [entries_eq, hroot, Node.entriesOf_some]
    rw [← hentries] at hplaced
    simp only [← homeStream_zero]
    generalize node.insert e (hashValue (Keyed.key e)) 0 (homeStream (Keyed.key e) 0) = done
      at hwf hplaced
    obtain ⟨node', _ | old⟩ := done
    · have hcounted := h.counted_fresh hwf hplaced
      exact ⟨hcounted, hplaced⟩
    · have hcounted := h.counted_inPlaceOf hwf hplaced
      exact ⟨hcounted, hplaced⟩

theorem insert_snd (h : t.WellFormed ok) {e : ε} (he : ok (Keyed.key e)) :
    (t.insert e).2 = t.get? (Keyed.key e) := by
  rw [h.get?_eq law he]
  exact (h.insert law he).2.replaced_eq law he h.lawful (h.distinct law)

/-- **After an insertion** the key finds the new entry, and other keys what they found. -/
theorem get?_insert (h : t.WellFormed ok) {e : ε} (he : ok (Keyed.key e)) {k : κ} (hk : ok k) :
    (t.insert e).1.get? k = if k == Keyed.key e then some e else t.get? k := by
  obtain ⟨hwf, hplaced⟩ := h.insert law he
  rw [hwf.get?_eq law hk, h.get?_eq law hk]
  exact hplaced.entryUnder_after law he h.lawful (h.distinct law) hk

/-! ### Removing -/

/-- **Removal takes the entry out and keeps the counters right.** -/
theorem remove (h : t.WellFormed ok) {k : κ} (hk : ok k) :
    (t.remove k).1.WellFormed ok ∧
      Taken k (hashValue k) t.entries (t.remove k).1.entries (t.remove k).2 := by
  have hanswer : (t.root.bind fun node => node.remove (hashSeeded · k) (hashValue k)
      (fun e => k == Keyed.key e) (IndexStream.ofHash (hashValue k))).map Prod.fst =
        entryUnder k t.entries := by
    rw [← h.get?_eq law hk, get?, getHashed?, lookup]
    rcases t.root with _ | node
    · rfl
    · exact Node.map_fst_remove ..
  rw [Trie.remove, removeHashed]
  rcases hfound : t.root.bind fun node => node.remove (hashSeeded · k) (hashValue k)
      (fun e => k == Keyed.key e) (IndexStream.ofHash (hashValue k)) with _ | ⟨old, rest⟩
  · rw [hfound] at hanswer
    exact ⟨h, .absent (entryUnder_eq_none_iff.mp hanswer.symm) rfl⟩
  · obtain ⟨node, hroot, hremove⟩ := Option.bind_eq_some_iff.mp hfound
    obtain ⟨htaken, hrest⟩ := (h.nodes node hroot).remove law hk hremove
    have hentries : t.entries = node.entries := by rw [entries_eq, hroot, Node.entriesOf_some]
    rw [← hentries] at htaken
    have hafter : (⟨rest, t.size - 1, t.hash ^^^ Keyed.contribution (hashValue k) old, none⟩ :
        Trie ε).entries = Node.entriesOf rest := entries_eq _
    refine ⟨⟨hrest, ?_, ?_⟩, ?_⟩
    · have := htaken.length_after
      rw [hafter, h.size_eq, ← this]
      rfl
    · rw [hafter, htaken.combined_found, ← h.hash_eq]
    · rw [hafter]
      exact htaken

theorem remove_snd (h : t.WellFormed ok) {k : κ} (hk : ok k) : (t.remove k).2 = t.get? k := by
  rw [h.get?_eq law hk]
  exact (h.remove law hk).2.taken_eq law hk h.lawful (h.distinct law)

/-- **After a removal** the key finds nothing, and other keys what they found. -/
theorem get?_remove (h : t.WellFormed ok) {k : κ} (hk : ok k) {k' : κ} (hk' : ok k') :
    (t.remove k).1.get? k' = if k' == k then none else t.get? k' := by
  obtain ⟨hwf, htaken⟩ := h.remove law hk
  rw [hwf.get?_eq law hk', h.get?_eq law hk']
  exact htaken.entryUnder_after law hk h.lawful (h.distinct law) hk'

/-- A removal takes one off the size exactly when it hands back an entry; in particular
    there is then one to take off. -/
theorem size_remove (h : t.WellFormed ok) {k : κ} (hk : ok k) :
    (t.remove k).1.size + (if (t.remove k).2.isSome then 1 else 0) = t.size := by
  obtain ⟨hwf, htaken⟩ := h.remove law hk
  rw [hwf.size_eq, h.size_eq]
  exact htaken.length_after

/-! ### Edits in a row -/

theorem filter (h : t.WellFormed ok) (p : ε → Bool) : (t.filter p).WellFormed ok := by
  refine List.foldlRecOn t.entries _ h ?_
  intro out hout x hx
  split
  · exact hout
  · exact (hout.remove law (h.lawful x hx)).1

end WellFormed

end Trie

/-! ### Merging -/

namespace MergeRule

variable {ε κ : Type} [BEq κ] [Hashed κ] [Keyed ε κ] {ok : κ → Prop} (law : LawfulOn ok)
  {left right : Trie ε}

include law

/-- What one entry of the right trie does keeps the result well-formed: the hash that is
    passed on with an entry is the one of its key. -/
theorem wellFormed_step (rule : MergeRule) (hleft : left.WellFormed ok) {out : Trie ε}
    (hout : out.WellFormed ok) {p : ε × UInt64} (hp : Stored ok p) :
    (rule.step left out p).WellFormed ok := by
  have hinsert : (out.insertHashed p.2 p.1).1.WellFormed ok := by
    rw [hp.hash]
    exact (hout.insert law hp.lawful).1
  unfold step
  rw [hleft.getHashed?_eq law hp]
  split
  · next found hfound =>
    obtain ⟨hash, hmem, hkey⟩ := mem_of_entryUnder hfound
    split
    · split
      · rw [hp.hash]
        exact (hout.remove law hp.lawful).1
      · exact hout
    · split
      · exact hout
      · have hfok := hleft.lawful _ hmem
        rw [hp.hash, law.hashValue_congr hp.lawful hfok hkey]
        exact (hout.insert law hfok).1
    · exact hinsert
  · split
    · exact hinsert
    · exact hout

theorem wellFormed_walk (rule : MergeRule) (hleft : left.WellFormed ok)
    (hright : right.WellFormed ok) : (rule.walk left right).WellFormed ok := by
  have hstart : (if rule.keepLeft then left else .empty : Trie ε).WellFormed ok := by
    split
    · exact hleft
    · exact Trie.wellFormed_empty
  refine List.foldlRecOn right.entries _ hstart ?_
  intro out hout p hp
  exact rule.wellFormed_step law hleft hout (hright.stored p hp)

/-- **A merge of well-formed tries is well-formed.** -/
theorem wellFormed_merge (rule : MergeRule) (hleft : left.WellFormed ok)
    (hright : right.WellFormed ok) : (rule.merge left right).WellFormed ok := by
  unfold merge
  split
  · exact rule.flip.wellFormed_walk law hright hleft
  · exact rule.wellFormed_walk law hleft hright

end MergeRule

end TrieCollections
