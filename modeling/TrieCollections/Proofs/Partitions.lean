/-
  TrieCollections/Proofs/Partitions.lean
  ======================================
  **The groups of a set are a partition of it.**  To group a set is to go through it once and to
  put each member into the group under its image.  Every such step takes a group out of the map,
  gives it one more member and puts it back, over the one that was there.

  What this leaves under a key is the set of the members with that image, as they are stored
  (`perm_group`).  So nothing needs to be known of the order of the steps any more, nor of the
  sizes that the groups had in between:

    * Each member is in the group of its own image and in no other one, so the groups together
      list just the members, each once (`perm_flatMap_groups`).
    * Sizes add up and unions give the set back since that holds of the lists.  And members of one
      list are different, so two groups have nothing in common, up to `==` either.

  The function need not respect `==`: it is only asked about the members that are stored.
-/
import Mathlib.Data.List.Nodup
import TrieCollections.Proofs.Gathering
import TrieCollections.Proofs.SetContents

namespace TrieCollections

/-- Lists put one after the other are as long as their lengths add up to. -/
theorem length_flatMap_eq_total {α β : Type} (f : α → List β) (xs : List α) :
    (xs.flatMap f).length = total (xs.map fun x => (f x).length) := by
  induction xs with
  | nil => rfl
  | cons x xs ih => rw [List.flatMap_cons, List.length_append, ih, List.map_cons, total_cons]

namespace TrieSet

variable {α κ : Type} [BEq α] [Hashed α] [BEq κ] [Hashed κ] {ok : α → Prop} {okKey : κ → Prop}
  (law : LawfulOn ok) (lawKey : LawfulOn okKey) {s : TrieSet α} (hs : s.trie.WellFormed ok)
  {f : α → κ} (hf : ∀ x ∈ s.toList, okKey (f x))

theorem groupBy_eq_gather (f : α → κ) (s : TrieSet α) :
    s.groupBy f = TrieMap.gather f id s.toList := rfl

include lawKey hf

theorem contains_groupBy {k : κ} (hk : okKey k) :
    (s.groupBy f).contains k = true ↔ ∃ x ∈ s.toList, (k == f x) = true :=
  TrieMap.contains_gather_iff lawKey hf hk

include hs

theorem reachable_groups : (s.groupBy f).WellFormed okKey fun group => group.Reachable ok :=
  TrieMap.reachable_gather lawKey hf fun _ hx => lawful_of_mem hs hx

include law

/-! ### One group -/

section Group

variable {e : κ × TrieSet α} (he : e ∈ (s.groupBy f).toList)

include he

/-- **A group has the members with its image**, and these are the stored ones. -/
theorem perm_group : e.2.toList.Perm (s.toList.filter (e.1 == f ·)) := by
  have hgroups := (reachable_groups lawKey hs hf).trie
  have hk := TrieMap.lawful_of_mem hgroups he
  rw [← TrieMap.getD_of_mem lawKey hgroups he .empty, groupBy_eq_gather,
    TrieMap.getD_gather lawKey hf hk, List.map_id]
  exact perm_toList_ofList law ((distinct_toList law hs).filter _)

theorem mem_group_iff {x : α} : x ∈ e.2.toList ↔ x ∈ s.toList ∧ (e.1 == f x) = true := by
  rw [(perm_group law lawKey hs hf he).mem_iff, List.mem_filter]

/-- No group is empty: the key came with a member. -/
theorem isEmpty_group : e.2.isEmpty = false := by
  have hgroups := reachable_groups lawKey hs hf
  obtain ⟨x, hx, hkey⟩ := TrieMap.exists_of_mem_gather lawKey hf he
  have hmem : x ∈ e.2.toList := by
    rw [mem_group_iff law lawKey hs hf he, hkey]
    exact ⟨hx, lawKey.refl (hf x hx)⟩
  rw [Bool.eq_false_iff, ne_eq, isEmpty_iff ((hgroups.values e he).wellFormed law)]
  exact List.ne_nil_of_mem hmem

end Group

/-! ### All groups together -/

theorem exists_group {x : α} (hx : x ∈ s.toList) :
    ∃ e ∈ (s.groupBy f).toList, x ∈ e.2.toList := by
  have hgroups := (reachable_groups lawKey hs hf).trie
  have hk := hf x hx
  have hfound : ((s.groupBy f).get? (f x)).isSome = true :=
    (contains_groupBy lawKey hf hk).mpr ⟨x, hx, lawKey.refl hk⟩
  obtain ⟨group, hgroup⟩ := Option.isSome_iff_exists.mp hfound
  obtain ⟨e, he, heq, -⟩ := (TrieMap.get?_eq_some_iff_mem lawKey hgroups hk).mp hgroup
  refine ⟨e, he, (mem_group_iff law lawKey hs hf he).mpr ⟨hx, ?_⟩⟩
  exact lawKey.symm hk (TrieMap.lawful_of_mem hgroups he) heq

/-- **The groups together list the members**, each of them once. -/
theorem perm_flatMap_groups : ((s.groupBy f).toList.flatMap (·.2.toList)).Perm s.toList := by
  have hgroups := (reachable_groups lawKey hs hf).trie
  have hmem : ∀ e ∈ (s.groupBy f).toList, ∀ {x}, x ∈ e.2.toList ↔
      x ∈ s.toList ∧ (e.1 == f x) = true := fun e he _ => mem_group_iff law lawKey hs hf he
  have hmembers := (distinct_toList law hs).nodup law
  have hnodup : ((s.groupBy f).toList.flatMap (·.2.toList)).Nodup := by
    rw [List.nodup_flatMap]
    constructor
    · intro e he
      exact (perm_group law lawKey hs hf he).nodup_iff.mpr (hmembers.filter _)
    · refine (TrieMap.pairwise_toList lawKey hgroups).imp_of_mem ?_
      intro e e' he he' hne x hx hx'
      -- a member in both groups would have both keys for its image
      obtain ⟨hmem₁, hkey⟩ := (hmem e he).mp hx
      obtain ⟨-, hkey'⟩ := (hmem e' he').mp hx'
      have hk := TrieMap.lawful_of_mem hgroups he
      have hk' := TrieMap.lawful_of_mem hgroups he'
      have himage := hf x hmem₁
      rw [lawKey.trans hk himage hk' hkey (lawKey.symm hk' himage hkey')] at hne
      cases hne
  rw [List.perm_ext_iff_of_nodup hnodup hmembers]
  intro x
  rw [List.mem_flatMap]
  constructor
  · rintro ⟨e, he, hx⟩
    exact ((hmem e he).mp hx).1
  · exact exists_group law lawKey hs hf

/-- What is in one group is in no other one, not even as an equal element. -/
theorem groups_disjoint : (s.groupBy f).toList.Pairwise fun e e' =>
    ∀ x, ok x → e.2.contains x = true → e'.2.contains x = false := by
  have hgroups := reachable_groups lawKey hs hf
  have hapart := ((distinct_toList law hs).perm law
    (perm_flatMap_groups law lawKey hs hf)).pairwise
  rw [List.pairwise_flatMap] at hapart
  refine hapart.2.imp_of_mem ?_
  intro e e' he he' hne x hx hfound
  have hwf := (hgroups.values e he).wellFormed law
  have hwf' := (hgroups.values e' he').wellFormed law
  rw [Bool.eq_false_iff]
  intro hfound'
  obtain ⟨y, hy, hxy⟩ := (contains_iff_mem law hwf hx).mp hfound
  obtain ⟨z, hz, hxz⟩ := (contains_iff_mem law hwf' hx).mp hfound'
  have hoky := lawful_of_mem hwf hy
  have heq := law.trans hoky hx (lawful_of_mem hwf' hz) (law.symm hx hoky hxy) hxz
  rw [hne y hy z hz] at heq
  cases heq

theorem total_size_groups : total ((s.groupBy f).values.map size) = s.size := by
  have hgroups := reachable_groups lawKey hs hf
  have hsizes : (s.groupBy f).values.map size =
      (s.groupBy f).toList.map fun e => e.2.toList.length := by
    rw [TrieMap.values, List.map_map]
    refine List.map_congr_left ?_
    intro e he
    exact size_eq_length ((hgroups.values e he).wellFormed law)
  rw [hsizes, ← length_flatMap_eq_total, size_eq_length hs]
  exact (perm_flatMap_groups law lawKey hs hf).length_eq

theorem unions_groups_beq {groups : List (TrieSet α)} (h : groups.Perm (s.groupBy f).values) :
    (unions groups == s) = true := by
  have hgroups := reachable_groups lawKey hs hf
  have hwf : ∀ e ∈ (s.groupBy f).toList, e.2.trie.WellFormed ok := fun e he =>
    (hgroups.values e he).wellFormed law
  have hvalues : ∀ group ∈ groups, group.trie.WellFormed ok := by
    intro group hgroup
    obtain ⟨e, he, rfl⟩ := List.mem_map.mp (h.mem_iff.mp hgroup)
    exact hwf e he
  rw [beq_iff_contains law (wellFormed_unions law hvalues) hs]
  intro x hx
  have hlisted : ∀ y, y ∈ s.toList ↔ ∃ e ∈ (s.groupBy f).toList, y ∈ e.2.toList := by
    intro y
    rw [← (perm_flatMap_groups law lawKey hs hf).mem_iff, List.mem_flatMap]
  rw [contains_unions law hvalues hx, Bool.eq_iff_iff, List.any_eq_true,
    contains_iff_mem law hs hx]
  constructor
  · rintro ⟨group, hgroup, hfound⟩
    obtain ⟨e, he, rfl⟩ := List.mem_map.mp (h.mem_iff.mp hgroup)
    obtain ⟨y, hy, heq⟩ := (contains_iff_mem law (hwf e he) hx).mp hfound
    exact ⟨y, (hlisted y).mpr ⟨e, he, hy⟩, heq⟩
  · rintro ⟨y, hy, heq⟩
    obtain ⟨e, he, hy⟩ := (hlisted y).mp hy
    refine ⟨e.2, h.mem_iff.mpr (List.mem_map_of_mem he), ?_⟩
    exact (contains_iff_mem law (hwf e he) hx).mpr ⟨y, hy, heq⟩

end TrieSet

/-- **Grouping is a partition.**  There is a group under a key exactly when some member has an
    image that equals the key, and the group then has all these members and no others, as the set
    stores them.  So no group is empty, two groups have no element in common, the sizes add up to
    that of the set, and the union of the groups, in any order, is the set. -/
theorem groupBy_partitions {α κ : Type} [BEq α] [Hashed α] [BEq κ] [Hashed κ] {ok : α → Prop}
    {okKey : κ → Prop} (law : LawfulOn ok) (lawKey : LawfulOn okKey) (s : TrieSet α)
    (hs : s.Reachable ok) (f : α → κ) (hf : ∀ x ∈ s.toList, okKey (f x)) :
    (s.groupBy f).ReachableWith okKey (TrieSet.Reachable ok) ∧
    (∀ k, okKey k → ((s.groupBy f).contains k = true ↔ ∃ x ∈ s.toList, (f x == k) = true)) ∧
    (∀ k, okKey k → ∀ group, (s.groupBy f).get? k = some group →
      group.toList.Perm (s.toList.filter fun x => f x == k) ∧ group.isEmpty = false) ∧
    ((s.groupBy f).toList.Pairwise fun e e' =>
      ∀ x, ok x → e.2.contains x = true → e'.2.contains x = false) ∧
    total ((s.groupBy f).values.map TrieSet.size) = s.size ∧
    ∀ groups, groups.Perm (s.groupBy f).values → (TrieSet.unions groups == s) = true := by
  have hwf := hs.wellFormed law
  have hgroups := TrieSet.reachable_groups lawKey hwf hf
  refine ⟨⟨TrieMap.reachable_groupBy hf, hgroups.values⟩, ?keys, ?members,
    TrieSet.groups_disjoint law lawKey hwf hf, TrieSet.total_size_groups law lawKey hwf hf,
    fun groups h => TrieSet.unions_groups_beq law lawKey hwf hf h⟩
  case keys =>
    intro k hk
    rw [TrieSet.contains_groupBy lawKey hf hk]
    refine exists_congr fun x => and_congr_right fun hx => ?_
    rw [lawKey.beq_comm hk (hf x hx)]
  case members =>
    intro k hk group hgroup
    obtain ⟨e, he, heq, rfl⟩ := (TrieMap.get?_eq_some_iff_mem lawKey hgroups.trie hk).mp hgroup
    refine ⟨?_, TrieSet.isEmpty_group law lawKey hwf hf he⟩
    have hsame : s.toList.filter (e.1 == f ·) = s.toList.filter fun x => f x == k := by
      refine List.filter_congr fun x hx => ?_
      rw [lawKey.beq_comm (hf x hx) hk]
      exact (lawKey.beq_congr hk (TrieMap.lawful_of_mem hgroups.trie he) (hf x hx) heq).symm
    rw [← hsame]
    exact TrieSet.perm_group law lawKey hwf hf he

/-- Colliding members with colliding images, of which two are equal and can be told apart. -/
theorem groupBy_partitions_colliding :
    LawfulOn (fun _ : ClusterKey => True) ∧
    let s : TrieSet ClusterKey := .ofList [⟨7, 1, "a"⟩, ⟨7, 2, "b"⟩, ⟨7, 3, "c"⟩, ⟨9, 1, "d"⟩]
    let f : ClusterKey → ClusterKey := fun x => ⟨5, x.number % 2, x.tag⟩
    s.Reachable (fun _ => True) ∧
    (∀ k, (s.groupBy f).contains k = true ↔ ∃ x ∈ s.toList, (f x == k) = true) ∧
    total ((s.groupBy f).values.map TrieSet.size) = s.size ∧
    (TrieSet.unions (s.groupBy f).values == s) = true := by
  refine ⟨lawfulOn_true, ?_⟩
  intro s f
  have hs : s.Reachable fun _ => True := .ofList fun _ _ => trivial
  obtain ⟨-, hkeys, -, -, hsizes, hunion⟩ :=
    groupBy_partitions lawfulOn_true lawfulOn_true s hs f fun _ _ => trivial
  exact ⟨hs, fun k => hkeys k trivial, hsizes, hunion _ (.refl _)⟩

end TrieCollections
