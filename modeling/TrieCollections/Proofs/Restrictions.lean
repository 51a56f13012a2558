/-
  TrieCollections/Proofs/Restrictions.lean
  ========================================
  **Parts of a collection.**  A part of a set or of a map is made by taking the other entries out
  of a copy, or by putting the wanted ones into an empty collection.  What comes of it is the same:
  the entries that are wanted, as they are stored.  Since a well-formed trie is its entries, two
  ways that leave the same entries agree in everything but the order within lists of collisions
  (`Trie.SameForm`).

  Filtering leaves the entries that satisfy the predicate (`Trie.WellFormed.perm_filter`), which
  is seen from the lookups.  From there on the trie that they came from plays no part any more: a
  trie has the form that it would have if its entries were put into an empty one, in any order
  (`Trie.WellFormed.sameForm_ofList`).  So a part is what was said to be kept, and no more
  (`filter_keeps_satisfying`).

  A map is restricted to the keys of a set in one of two ways, and the sizes decide in which.  Both
  find under each key what the map finds, if the set has the key (`project_routes_agree`).
-/
import TrieCollections.Proofs.CollectionLookups

namespace TrieCollections

/-! ### Tries with the same entries -/

section SameEntries

variable {ε κ : Type} [BEq κ] [Hashed κ] [Keyed ε κ] {ok : κ → Prop}

theorem Matched.of_perm (law : LawfulOn ok) {es es' : List (ε × UInt64)}
    (hs : ∀ p ∈ es, Stored ok p) (hperm : es.Perm es') : Matched es es' := by
  refine ⟨es, hperm.symm, List.forall₂_same.mpr ?_⟩
  intro p hp
  exact ⟨law.refl (hs p hp).lawful, rfl⟩

namespace Trie

/-- The tries hold the same entries, counted alike and in nodes of the same shape. -/
structure SameForm (s t : Trie ε) : Prop where
  entries : s.entries.Perm t.entries
  size_eq : s.size = t.size
  hash_eq : s.hash = t.hash
  shape : s.SameShape t

/-- An entry with the hash under which it is stored. -/
def withHash (e : ε) : ε × UInt64 := (e, hashValue (Keyed.key e))

/-- The trie of a list of entries, the first one put in first. -/
def ofList (es : List ε) : Trie ε := es.foldl (fun t e => (t.insert e).1) empty

theorem ofList_concat (es : List ε) (e : ε) : ofList (es ++ [e]) = ((ofList es).insert e).1 :=
  List.foldl_concat ..

theorem WellFormed.map_withHash {t : Trie ε} (h : t.WellFormed ok) :
    (t.entries.map Prod.fst).map withHash = t.entries := by
  rw [List.map_map]
  refine (List.map_congr_left ?_).trans t.entries.map_id
  intro p hp
  rw [Function.comp_apply, withHash, ← (h.stored p hp).hash]
  rfl

variable (law : LawfulOn ok) {s t : Trie ε}

include law

theorem WellFormed.sameForm_of_perm (hs : s.WellFormed ok) (ht : t.WellFormed ok)
    (hperm : s.entries.Perm t.entries) : s.SameForm t where
  entries := hperm
  size_eq := by rw [hs.size_eq, ht.size_eq, hperm.length_eq]
  hash_eq := by rw [hs.hash_eq, ht.hash_eq, combined_perm hperm]
  shape := hs.sameShape law ht (.of_perm law hs.stored hperm)

theorem WellFormed.sameForm_of_get?_eq (hs : s.WellFormed ok) (ht : t.WellFormed ok)
    (hsame : ∀ k, ok k → s.get? k = t.get? k) : s.SameForm t :=
  hs.sameForm_of_perm law ht (hs.perm_of_get?_eq law ht hsame)

/-! ### Entries put into an empty trie -/

/-- **Entries with different keys are all there when they have been put in.**  By induction on the
    list, the last entry last: it finds no entry with its key, so it is added to the others. -/
theorem perm_ofList {es : List ε} (hes : ∀ e ∈ es, ok (Keyed.key e))
    (hd : DistinctKeys (es.map withHash)) :
    (ofList es).WellFormed ok ∧ (ofList es).entries.Perm (es.map withHash) := by
  induction es using List.reverseRecOn with
  | nil => exact ⟨wellFormed_empty, .refl _⟩
  | append_singleton es e ih =>
    rw [List.map_append, DistinctKeys, List.pairwise_append] at hd
    obtain ⟨hd, -, hnew⟩ := hd
    obtain ⟨hwf, hperm⟩ := ih (fun f hf => hes f (List.mem_append_left _ hf)) hd
    have he := hes e (List.mem_append_right _ (List.mem_singleton_self e))
    obtain ⟨hwf', hplaced⟩ := hwf.insert law he
    rw [ofList_concat, List.map_append]
    refine ⟨hwf', ?_⟩
    generalize ((ofList es).insert e).2 = replaced at hplaced
    cases hplaced with
    | fresh new now =>
      exact (now.trans (hperm.cons _)).trans (List.perm_append_singleton _ _).symm
    | inPlaceOf same was now =>
      -- the entry that had to make way would be one of the list with the same key
      have hmem := hperm.mem_iff.mp (was.mem_iff.mpr List.mem_cons_self)
      have hne := (hnew _ hmem _ (List.mem_singleton_self _)).2
      rw [withHash, same] at hne
      cases hne

/-- **The form of a trie does not depend on how it came about.**  It is the form of what the
    entries make when they are put into an empty trie, in any order. -/
theorem WellFormed.sameForm_ofList (h : t.WellFormed ok) {es : List ε}
    (hes : es.Perm (t.entries.map Prod.fst)) : t.SameForm (ofList es) := by
  have hperm : (es.map withHash).Perm t.entries := by
    rw [← h.map_withHash]
    exact hes.map withHash
  have hlawful : ∀ e ∈ es, ok (Keyed.key e) := by
    intro e he
    obtain ⟨p, hp, rfl⟩ := List.mem_map.mp (hes.mem_iff.mp he)
    exact h.lawful p hp
  obtain ⟨hwf, hlist⟩ := perm_ofList law hlawful ((h.distinct law).perm hperm.symm)
  exact h.sameForm_of_perm law hwf (hlist.trans hperm).symm

/-! ### Entries that satisfy a predicate -/

/-- **Filtering leaves the entries that satisfy the predicate**, the very ones that were there. -/
theorem WellFormed.perm_filter (h : t.WellFormed ok) (p : ε → Bool) :
    (t.filter p).entries.Perm (t.entries.filter fun x => p x.1) := by
  have hfiltered := h.filter law p
  have hiff : ∀ x : ε × UInt64, ok (Keyed.key x.1) →
      (x ∈ (t.filter p).entries ↔ x ∈ t.entries.filter fun x => p x.1) := by
    intro x hx
    rw [hfiltered.mem_entries_iff law hx, h.get?_filter law p hx, List.mem_filter,
      h.mem_entries_iff law hx, Option.filter_eq_some_iff]
    exact and_right_comm
  rw [List.perm_ext_iff_of_nodup (hfiltered.nodup_entries law) ((h.nodup_entries law).filter _)]
  intro x
  constructor
  · intro hx
    exact (hiff x (hfiltered.lawful x hx)).mp hx
  · intro hx
    exact (hiff x (h.lawful x (List.mem_of_mem_filter hx))).mpr hx

/-- What satisfies a predicate and what fails it make up the whole again. -/
theorem WellFormed.sameForm_union_filter (h : t.WellFormed ok) (p : ε → Bool) :
    (MergeRule.union.merge (t.filter p) (t.filter fun e => !p e)).SameForm t := by
  have hpart := h.filter law p
  have hrest := h.filter law fun e => !p e
  refine (MergeRule.union.wellFormed_merge law hpart hrest).sameForm_of_get?_eq law h ?_
  intro k hk
  rw [MergeRule.union.get?_merge law hpart hrest hk, h.get?_filter law _ hk,
    h.get?_filter law _ hk]
  rcases t.get? k with _ | e
  · rfl
  · cases hp : p e <;> simp [hp, Option.filter, MergeRule.pick, MergeRule.union]

/-- No key finds an entry in both parts. -/
theorem WellFormed.get?_filter_not (h : t.WellFormed ok) (p : ε → Bool) {k : κ} (hk : ok k)
    (hfound : ((t.filter p).get? k).isSome = true) :
    ((t.filter fun e => !p e).get? k).isSome = false := by
  rw [h.get?_filter law _ hk] at hfound ⊢
  generalize t.get? k = found? at hfound ⊢
  obtain ⟨e, he⟩ := Option.isSome_iff_exists.mp hfound
  obtain ⟨rfl, hp⟩ := Option.filter_eq_some_iff.mp he
  simp [hp]

end Trie

end SameEntries

/-! ### Filtered sets -/

namespace TrieSet

variable {α : Type} [BEq α] [Hashed α]

theorem trie_ofList (xs : List α) : (ofList xs).trie = Trie.ofList (xs.map Member.mk) := by
  rw [Trie.ofList, List.foldl_map]
  exact (List.foldl_hom TrieSet.trie fun _ _ => rfl).symm

/-- The part holds the members of the set that satisfy the predicate, the very ones, and it is as
    if these had been put into an empty set, in any order. -/
structure Keeps (ok : α → Prop) (s : TrieSet α) (p : α → Bool) (part : TrieSet α) : Prop where
  get?_eq : ∀ x, ok x → part.get? x = (s.get? x).filter p
  members : part.toList.Perm (s.toList.filter p)
  size_eq : part.size = (s.toList.filter p).length
  hash_eq : part.hash = xorAll ((s.toList.filter p).map hashValue)
  form : ∀ xs : List α, xs.Perm (s.toList.filter p) → part.trie.SameForm (ofList xs).trie

/-- The two sets have no element in common, and their union is the set, with the same members. -/
structure SplitsInto (ok : α → Prop) (s part rest : TrieSet α) : Prop where
  disjoint : ∀ x, ok x → part.contains x = true → rest.contains x = false
  union_beq : (part.union rest == s) = true
  form : (part.union rest).trie.SameForm s.trie

variable {ok : α → Prop} (law : LawfulOn ok) {s : TrieSet α} (hs : s.trie.WellFormed ok)

include law hs

theorem sameForm_ofList {xs : List α} (hxs : xs.Perm s.toList) :
    s.trie.SameForm (ofList xs).trie := by
  have hmembers : s.toList.map Member.mk = s.trie.entries.map Prod.fst := by
    rw [toList, List.map_map]
    rfl
  rw [trie_ofList]
  apply hs.sameForm_ofList law
  rw [← hmembers]
  exact hxs.map _

theorem keeps_filter (p : α → Bool) : s.Keeps ok p (s.filter p) := by
  have hwf : (s.filter p).trie.WellFormed ok := wellFormed_filter law hs p
  have hmembers : (s.filter p).toList.Perm (s.toList.filter p) := by
    rw [toList, toList, List.filter_map]
    exact (hs.perm_filter law _).map _
  refine ⟨?_, hmembers, ?_, ?_, ?_⟩
  · intro x hx
    show ((s.trie.filter fun m => p m.value).get? x).map Member.value = _
    rw [hs.get?_filter law _ hx, get?, Option.filter_map]
    rfl
  · rw [size_eq_length hwf, hmembers.length_eq]
  · rw [hash_eq_xorAll hwf, xorAll_perm (hmembers.map _)]
  · intro xs hxs
    exact sameForm_ofList law hwf (hxs.trans hmembers.symm)

theorem splitsInto_filter (p : α → Bool) :
    s.SplitsInto ok (s.filter p) (s.filter fun x => !p x) := by
  have hwf := wellFormed_union law (wellFormed_filter law hs p)
    (wellFormed_filter law hs fun x => !p x)
  have hform := hs.sameForm_union_filter law fun m : Member α => p m.value
  refine ⟨?_, ?_, hform⟩
  · intro x hx hfound
    rw [contains_eq] at hfound ⊢
    exact hs.get?_filter_not law _ hx hfound
  · exact (beq_iff_matched law hwf hs).mpr (.of_perm law hwf.stored hform.entries)

end TrieSet

/-! ### Filtered maps -/

namespace TrieMap

variable {κ ν : Type} [BEq κ] [Hashed κ] [Hashed ν]

theorem trie_ofList (es : List (κ × ν)) : (ofList es).trie = Trie.ofList es :=
  (List.foldl_hom TrieMap.trie fun _ _ => rfl).symm

/-- The part holds the entries of the map that satisfy the predicate, the very ones, and it is as
    if these had been put into an empty map, in any order. -/
structure Keeps (ok : κ → Prop) (m : TrieMap κ ν) (p : κ → ν → Bool) (part : TrieMap κ ν) :
    Prop where
  getEntry?_eq : ∀ k, ok k → part.getEntry? k = (m.getEntry? k).filter fun e => p e.1 e.2
  entries : part.toList.Perm (m.toList.filter fun e => p e.1 e.2)
  size_eq : part.size = (m.toList.filter fun e => p e.1 e.2).length
  hash_eq : part.hash =
    xorAll ((m.toList.filter fun e => p e.1 e.2).map fun e => hashSeeded (hashValue e.1) e.2)
  form : ∀ es : List (κ × ν), es.Perm (m.toList.filter fun e => p e.1 e.2) →
    part.trie.SameForm (ofList es).trie

/-- The two maps have no key in common, and their union is the map, with the same entries: equal
    to it if its values equal themselves, as it is then equal to itself. -/
structure SplitsInto [BEq ν] (ok : κ → Prop) (m part rest : TrieMap κ ν) : Prop where
  disjoint : ∀ k, ok k → part.contains k = true → rest.contains k = false
  union_beq : (∀ e ∈ m.toList, (e.2 == e.2) = true) → (part.union rest == m) = true
  form : (part.union rest).trie.SameForm m.trie

variable {ok : κ → Prop} (law : LawfulOn ok) {m n : TrieMap κ ν} (hm : m.trie.WellFormed ok)

include law hm

theorem keeps_filter (p : κ → ν → Bool) : m.Keeps ok p (m.filter p) := by
  have hwf : (m.filter p).trie.WellFormed ok := wellFormed_filter law hm p
  have hentries : (m.filter p).toList.Perm (m.toList.filter fun e => p e.1 e.2) := by
    rw [toList, toList, List.filter_map]
    exact (hm.perm_filter law _).map _
  refine ⟨fun k hk => getEntry?_filter law hm p hk, hentries, ?_, ?_, ?_⟩
  · rw [size_eq_length hwf, hentries.length_eq]
  · rw [hash_eq_xorAll hwf, xorAll_perm (hentries.map _)]
  · intro es hes
    rw [trie_ofList]
    exact hwf.sameForm_ofList law (hes.trans hentries.symm)

/-- Maps with the same entries are equal when the values equal themselves. -/
theorem beq_of_sameForm [BEq ν] (hn : n.trie.WellFormed ok) (hform : m.trie.SameForm n.trie)
    (hrefl : ∀ e ∈ n.toList, (e.2 == e.2) = true) : (m == n) = true := by
  show (m.size == n.size && m.hash == n.hash && (false || m.within n)) = true
  rw [Bool.false_or, Bool.and_eq_true, Bool.and_eq_true, beq_iff_eq, beq_iff_eq,
    within_iff law hm hn]
  refine ⟨⟨hform.size_eq, hform.hash_eq⟩, ?_⟩
  intro p hp
  have hp' := hform.entries.mem_iff.mp hp
  exact ⟨p, hp', ⟨law.refl (hm.lawful p hp), rfl⟩, hrefl _ (List.mem_map_of_mem hp')⟩

theorem splitsInto_filter [BEq ν] (p : κ → ν → Bool) :
    m.SplitsInto ok (m.filter p) (m.filter fun k v => !p k v) := by
  have hwf := wellFormed_union law (wellFormed_filter law hm p)
    (wellFormed_filter law hm fun k v => !p k v)
  have hform := hm.sameForm_union_filter law fun e => p e.1 e.2
  refine ⟨?_, beq_of_sameForm law hwf hm hform, hform⟩
  intro k hk hfound
  rw [contains_eq] at hfound ⊢
  exact hm.get?_filter_not law _ hk hfound

end TrieMap

/-- **A filter keeps what satisfies the predicate.**  The part holds exactly those entries, as they
    are stored; its size is their number and its hash the xor of what they contribute; and its trie
    has the form of the one that they make when they are put into an empty collection.  What fails
    the predicate is the rest: the two parts have nothing in common, and together they are the
    collection.  A predicate may tell equal keys apart. -/
theorem filter_keeps_satisfying {κ ν : Type} [BEq κ] [Hashed κ] [BEq ν] [Hashed ν] {ok : κ → Prop}
    (law : LawfulOn ok) :
    (∀ (s : TrieSet κ) (p : κ → Bool), s.Reachable ok →
      s.Keeps ok p (s.filter p) ∧ s.SplitsInto ok (s.filter p) (s.filter fun x => !p x)) ∧
    ∀ (m : TrieMap κ ν) (p : κ → ν → Bool), m.Reachable ok →
      m.Keeps ok p (m.filter p) ∧ m.SplitsInto ok (m.filter p) (m.filter fun k v => !p k v) := by
  constructor
  · intro s p hs
    have hwf := hs.wellFormed law
    exact ⟨TrieSet.keeps_filter law hwf p, TrieSet.splitsInto_filter law hwf p⟩
  · intro m p hm
    have hwf := hm.wellFormed law
    exact ⟨TrieMap.keeps_filter law hwf p, TrieMap.splitsInto_filter law hwf p⟩

/-- A filter by tags, which equality does not see, among three colliding keys. -/
theorem filter_keeps_satisfying_colliding :
    LawfulOn (fun _ : ClusterKey => True) ∧
    let m : TrieMap ClusterKey Int64 :=
      .ofList [(⟨7, 1, "a"⟩, 10), (⟨7, 2, "b"⟩, 20), (⟨7, 3, "a"⟩, 30), (⟨9, 1, "b"⟩, 40)]
    let part := m.filter fun k _ => k.tag == "a"
    let rest := m.filter fun k _ => !(k.tag == "a")
    m.Keeps (fun _ => True) (fun k _ => k.tag == "a") part ∧
    m.SplitsInto (fun _ => True) part rest ∧ (part.union rest == m) = true := by
  refine ⟨lawfulOn_true, ?_⟩
  intro m part rest
  obtain ⟨hkeeps, hsplits⟩ := (filter_keeps_satisfying lawfulOn_true).2 m
    (fun k _ => k.tag == "a") (.ofList fun _ _ => trivial)
  exact ⟨hkeeps, hsplits, hsplits.union_beq fun e _ => beq_self_eq_true e.2⟩

/-! ### Restrictions to the keys of a set -/

namespace TrieMap

variable {κ ν : Type} [BEq κ] [Hashed κ] [Hashed ν]

/-- The part holds the entries of the map whose keys are in the set, as the map has them. -/
structure RestrictsTo (ok : κ → Prop) (m : TrieMap κ ν) (ks : TrieSet κ) (part : TrieMap κ ν) :
    Prop where
  getEntry?_eq : ∀ k, ok k →
    part.getEntry? k = if ks.contains k then m.getEntry? k else none
  entries : part.toList.Perm (m.toList.filter fun e => ks.contains e.1)

variable {ok : κ → Prop} (law : LawfulOn ok) {m part part' : TrieMap κ ν} {ks : TrieSet κ}
  (hm : m.trie.WellFormed ok) (hks : ks.trie.WellFormed ok)

include law

theorem RestrictsTo.sameForm (h : m.RestrictsTo ok ks part) (h' : m.RestrictsTo ok ks part')
    (hpart : part.trie.WellFormed ok) (hpart' : part'.trie.WellFormed ok) :
    part.trie.SameForm part'.trie :=
  hpart.sameForm_of_get?_eq law hpart' fun k hk =>
    (h.getEntry?_eq k hk).trans (h'.getEntry?_eq k hk).symm

include hm hks

/-- A map that finds what a restriction should find is one: it holds what filtering leaves. -/
theorem restrictsTo_of_getEntry? (hpart : part.trie.WellFormed ok)
    (hfound : ∀ k, ok k → part.getEntry? k = if ks.contains k then m.getEntry? k else none) :
    m.RestrictsTo ok ks part where
  getEntry?_eq := hfound
  entries := by
    have hsame := hpart.sameForm_of_get?_eq law (wellFormed_filter law hm fun k _ => ks.contains k)
      fun k hk => (hfound k hk).trans (getEntry?_keepIn law hm hks hk).symm
    exact (hsame.entries.map _).trans (keeps_filter law hm fun k _ => ks.contains k).entries

end TrieMap

/-- **Both ways to restrict a map come to the same.**  Whether the keys of the set are looked up in
    the map, or the map is filtered by the set, and so whichever the sizes decide on: under a key
    that the set contains stands what the map has there, key and value, and nothing else is left.
    The two results have one size and one hash, and their tries have the same shape. -/
theorem project_routes_agree {κ ν : Type} [BEq κ] [Hashed κ] [Hashed ν] {ok : κ → Prop}
    (law : LawfulOn ok) (m : TrieMap κ ν) (ks : TrieSet κ) (hm : m.Reachable ok)
    (hks : ks.Reachable ok) :
    m.project ks = (if ks.size < m.size then m.pickEach ks else m.keepIn ks) ∧
    m.RestrictsTo ok ks (m.project ks) ∧
    m.RestrictsTo ok ks (m.pickEach ks) ∧ m.RestrictsTo ok ks (m.keepIn ks) ∧
    (m.pickEach ks).trie.SameForm (m.keepIn ks).trie := by
  have hwm := hm.wellFormed law
  have hwks := hks.wellFormed law
  have hpick := TrieMap.wellFormed_pickEach law hwm hwks
  have hkeep := TrieMap.wellFormed_filter law hwm fun k _ => ks.contains k
  have hpicked := TrieMap.restrictsTo_of_getEntry? law hwm hwks hpick fun _ hk =>
    TrieMap.getEntry?_pickEach law hwm hwks hk
  have hkept := TrieMap.restrictsTo_of_getEntry? law hwm hwks hkeep fun _ hk =>
    TrieMap.getEntry?_keepIn law hwm hwks hk
  refine ⟨TrieMap.project_eq m ks, ?_, hpicked, hkept, hpicked.sameForm law hkept hpick hkeep⟩
  rw [TrieMap.project_eq]
  split
  · exact hpicked
  · exact hkept

/-- A smaller set of keys, of which one equals a colliding key of the map under another tag. -/
theorem project_routes_agree_colliding :
    LawfulOn (fun _ : ClusterKey => True) ∧
    let m : TrieMap ClusterKey Int64 :=
      .ofList [(⟨7, 1, "a"⟩, 10), (⟨7, 2, "b"⟩, 20), (⟨9, 1, "c"⟩, 30)]
    let ks : TrieSet ClusterKey := .ofList [⟨7, 2, "x"⟩, ⟨7, 5, "y"⟩]
    m.Reachable (fun _ => True) ∧ ks.Reachable (fun _ => True) ∧
    m.RestrictsTo (fun _ => True) ks (m.project ks) ∧
    (m.pickEach ks).trie.SameForm (m.keepIn ks).trie := by
  refine ⟨lawfulOn_true, ?_⟩
  intro m ks
  have hm : m.Reachable fun _ => True := .ofList fun _ _ => trivial
  have hks : ks.Reachable fun _ => True := .ofList fun _ _ => trivial
  obtain ⟨-, hproject, -, -, hform⟩ := project_routes_agree lawfulOn_true m ks hm hks
  exact ⟨hm, hks, hproject, hform⟩

end TrieCollections
