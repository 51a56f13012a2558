/-
  TrieCollections/Proofs/GroupCounts.lean
  =======================================
  **How many tuples nesting gives.**  There are as many groups as the tuples have different parts
  outside the folded attributes.  Each group becomes one tuple, but the new attribute is written
  into it, over what may have been there.  So the tuple shows of its group the first part without
  the new attribute, and the relation of the second parts (`packed_beq_iff`), and two groups that
  agree in these become one tuple.

  The result thus has no more tuples than there are groups, and as many exactly when no two groups
  agree so (`nest_size_counts_groups`).  This is sure to be the case where the new attribute is not
  among those that stay outside.  Where it is, groups can be lost (`nest_merges_groups`).
-/
import TrieCollections.Proofs.DistinctCounts
import TrieCollections.Proofs.ExactGroups

namespace TrieCollections

open TrieMap (ReachableWith)

namespace Relation

variable {κ ν : Type} [BEq κ] [Hashed κ] [BEq ν] [Hashed ν] {ok : κ → Prop} {okValue : ν → Prop}
  (law : LawfulOn ok) (lawValue : LawfulOn okValue)

include law lawValue

/-- **What the tuple of a group shows**: its first part without the new attribute, and its
    relation. -/
theorem packed_beq_iff [HoldsRelation κ ν] (wrapping : LawfulWrapping ok okValue) {attr : κ}
    (hattr : ok attr) {e e' : Tuple κ ν × Relation κ ν} (hkey : ReachableWith ok okValue e.1)
    (hkey' : ReachableWith ok okValue e'.1) (hgroup : e.2.Reachable (ReachableWith ok okValue))
    (hgroup' : e'.2.Reachable (ReachableWith ok okValue)) :
    (packed attr e == packed attr e') = true ↔
      (TrieMap.erase e.1 attr == TrieMap.erase e'.1 attr) = true ∧ (e.2 == e'.2) = true := by
  have lawTuple := TrieMap.lawfulOn_reachableWith law lawValue
  have holding := wrapping.toLawfulHolding
  have hwk := hkey.wellFormed law
  have hwk' := hkey'.wellFormed law
  have hheld := holding.okValue_ofRelation e.2 hgroup
  have hheld' := holding.okValue_ofRelation e'.2 hgroup'
  have hpacked := reachableWith_packed law holding hattr hkey hgroup
  have hpacked' := reachableWith_packed law holding hattr hkey' hgroup'
  have hrest := hkey.erase law hattr
  have hrest' := hkey'.erase law hattr
  constructor
  · intro h
    constructor
    · have hwritten := hpacked.erase law hattr
      have hwritten' := hpacked'.erase law hattr
      have hsame := TrieMap.erase_congr law lawValue (hpacked.wellFormed law)
        (hpacked'.wellFormed law) h hattr hattr (law.refl hattr)
      apply lawTuple.trans hrest hwritten hrest'
      · exact lawTuple.symm hwritten hrest (TrieMap.erase_insert_beq law lawValue hwk hattr hheld)
      · exact lawTuple.trans hwritten hwritten' hrest' hsame
          (TrieMap.erase_insert_beq law lawValue hwk' hattr hheld')
    · have hnested := nested?_of_beq law lawValue holding hattr hpacked hpacked' h
      rw [nested?_packed law holding hattr hkey hgroup,
        nested?_packed law holding hattr hkey' hgroup'] at hnested
      cases hnested with
      | some hsame => exact hsame
  · rintro ⟨hrests, hgroups⟩
    have hvalues := wrapping.ofRelation_congr e.2 e'.2 hgroup hgroup' hgroups
    have hsame := TrieMap.insert_congr law lawValue (hrest.wellFormed law) (hrest'.wellFormed law)
      hrests hattr hattr (law.refl hattr) hheld hheld' hvalues
    have hwritten := hrest.insert law hattr hheld
    have hwritten' := hrest'.insert law hattr hheld'
    apply lawTuple.trans hpacked hwritten hpacked'
    · exact lawTuple.symm hwritten hpacked (TrieMap.insert_erase_beq law lawValue hwk hattr hheld)
    · exact lawTuple.trans hwritten hwritten' hpacked' hsame
        (TrieMap.insert_erase_beq law lawValue hwk' hattr hheld')

/-! ### Counting -/

section Counting

variable {rel : Relation κ ν} (hrel : rel.trie.WellFormed (ReachableWith ok okValue))
  {attrs : TrieSet κ} (hattrs : attrs.trie.WellFormed ok)

include hrel hattrs

/-- Tuples that belong together have the same partners. -/
theorem partners_eq {t u : Tuple κ ν} (ht : t ∈ rel.toList) (hu : u ∈ rel.toList)
    (hsame : (outside attrs t == outside attrs u) = true) :
    partners attrs rel t = partners attrs rel u := by
  have lawTuple := TrieMap.lawfulOn_reachableWith law lawValue
  have houts := (reachableWith_parts law hrel hattrs).1
  have hfilter : ∀ t' ∈ rel.toList,
      (outside attrs t' == outside attrs t) = (outside attrs t' == outside attrs u) := by
    intro t' ht'
    rw [lawTuple.beq_comm (houts t' ht') (houts t ht),
      lawTuple.beq_comm (houts t' ht') (houts u hu),
      lawTuple.beq_congr (houts t ht) (houts u hu) (houts t' ht') hsame]
  rw [partners, partners, List.filter_congr hfilter]

omit hattrs in
/-- Where nothing is folded away, a group is the relation of the empty tuple. -/
theorem partners_none_beq {t : Tuple κ ν} (ht : t ∈ rel.toList) :
    (partners .empty rel t == TrieSet.unit (.empty : Tuple κ ν)) = true := by
  have lawTuple := TrieMap.lawfulOn_reachableWith law lawValue
  have hnone : (TrieSet.empty : TrieSet κ).trie.WellFormed ok := TrieSet.wellFormed_empty
  have hempty : ReachableWith ok okValue (.empty : Tuple κ ν) := .empty
  have hwell := (reachable_partners law hrel hnone t).wellFormed lawTuple
  apply (comprises_partners law lawValue hrel hnone t).beq_unit lawTuple hwell hempty
  · rintro _ ⟨u, hu, -, rfl⟩
    have hwu := (TrieSet.lawful_of_mem hrel hu).wellFormed law
    apply TrieMap.beq_of_get?_eq law lawValue (hwu.project law hnone) (hempty.wellFormed law)
    intro k hk
    rw [TrieMap.get?_project law hwu.trie hnone hk, TrieSet.contains_empty]
    rfl
  · have hout := (reachableWith_parts law hrel hnone).1 t ht
    exact ⟨_, t, ht, lawTuple.refl hout, rfl⟩

variable [HoldsRelation κ ν] (wrapping : LawfulWrapping ok okValue) {attr : κ} (hattr : ok attr)

include wrapping hattr

/-- The result has as many tuples as the groups become different ones. -/
theorem size_nest_eq : (rel.nest attr attrs).size =
    (rel.toList.map fun t =>
      packed attr (outside attrs t, partners attrs rel t)).eraseDups.length := by
  have lawTuple := TrieMap.lawfulOn_reachableWith law lawValue
  have hnest := reachable_nest law lawValue wrapping.toLawfulHolding hrel hattr hattrs
  have hcomprises := comprises_nest law lawValue wrapping hrel hattr hattrs
  have hlisted :
      (fun u => ∃ t ∈ rel.toList, u = packed attr (outside attrs t, partners attrs rel t)) =
        (· ∈ rel.toList.map fun t => packed attr (outside attrs t, partners attrs rel t)) := by
    funext u
    simp only [List.mem_map, eq_comm]
  rw [hlisted] at hcomprises
  exact hcomprises.size_eq lawTuple (hnest.wellFormed lawTuple)

omit lawValue in
theorem reachableWith_packed_parts :
    ∀ t ∈ rel.toList, ReachableWith ok okValue
      (packed attr (outside attrs t, partners attrs rel t)) := fun t ht =>
  reachableWith_packed law wrapping.toLawfulHolding hattr
    ((reachableWith_parts law hrel hattrs).1 t ht) (reachable_partners law hrel hattrs t)

/-- When the groups of two tuples become one tuple. -/
theorem packed_parts_beq_iff {t u : Tuple κ ν} (ht : t ∈ rel.toList) (hu : u ∈ rel.toList) :
    (packed attr (outside attrs t, partners attrs rel t) ==
      packed attr (outside attrs u, partners attrs rel u)) = true ↔
      (TrieMap.erase (outside attrs t) attr == TrieMap.erase (outside attrs u) attr) = true ∧
        (partners attrs rel t == partners attrs rel u) = true := by
  have houts := (reachableWith_parts law hrel hattrs).1
  exact packed_beq_iff law lawValue wrapping hattr (houts t ht) (houts u hu)
    (reachable_partners law hrel hattrs t) (reachable_partners law hrel hattrs u)

/-- Tuples that belong together are in one group, so they give one tuple. -/
theorem packed_parts_beq {t u : Tuple κ ν} (ht : t ∈ rel.toList) (hu : u ∈ rel.toList)
    (hsame : (outside attrs t == outside attrs u) = true) :
    (packed attr (outside attrs t, partners attrs rel t) ==
      packed attr (outside attrs u, partners attrs rel u)) = true := by
  have lawTuple := TrieMap.lawfulOn_reachableWith law lawValue
  have houts := (reachableWith_parts law hrel hattrs).1
  rw [packed_parts_beq_iff law lawValue hrel hattrs wrapping hattr ht hu]
  constructor
  · exact TrieMap.erase_congr law lawValue ((houts t ht).wellFormed law)
      ((houts u hu).wellFormed law) hsame hattr hattr (law.refl hattr)
  · rw [partners_eq law lawValue hrel hattrs ht hu hsame]
    exact (TrieSet.lawfulOn lawTuple).refl
      ((reachable_partners law hrel hattrs u).wellFormed lawTuple)

theorem size_nest_le :
    (rel.nest attr attrs).size ≤ (rel.toList.map (outside attrs)).eraseDups.length := by
  have lawTuple := TrieMap.lawfulOn_reachableWith law lawValue
  have houts := (reachableWith_parts law hrel hattrs).1
  rw [size_nest_eq law lawValue hrel hattrs wrapping hattr]
  apply length_eraseDups_map_le lawTuple lawTuple houts
  · exact reachableWith_packed_parts law hrel hattrs wrapping hattr
  · intro t ht u hu hsame
    exact packed_parts_beq law lawValue hrel hattrs wrapping hattr ht hu hsame

/-- **No tuple is missing when no two groups agree in what their tuples show.** -/
theorem size_nest_eq_iff :
    (rel.nest attr attrs).size = (rel.toList.map (outside attrs)).eraseDups.length ↔
      ∀ t ∈ rel.toList, ∀ u ∈ rel.toList,
        (TrieMap.erase (outside attrs t) attr == TrieMap.erase (outside attrs u) attr) = true →
        (partners attrs rel t == partners attrs rel u) = true →
        (outside attrs t == outside attrs u) = true := by
  have lawTuple := TrieMap.lawfulOn_reachableWith law lawValue
  have houts := (reachableWith_parts law hrel hattrs).1
  rw [size_nest_eq law lawValue hrel hattrs wrapping hattr,
    length_eraseDups_map_eq_iff lawTuple lawTuple houts]
  · refine forall₄_congr fun t ht u hu => ?_
    rw [packed_parts_beq_iff law lawValue hrel hattrs wrapping hattr ht hu, and_imp]
  · exact reachableWith_packed_parts law hrel hattrs wrapping hattr
  · intro t ht u hu hsame
    exact packed_parts_beq law lawValue hrel hattrs wrapping hattr ht hu hsame

omit wrapping [HoldsRelation κ ν] in
/-- Where the new attribute does not stay outside, there is nothing to take away. -/
theorem erase_outside_beq {t : Tuple κ ν} (ht : t ∈ rel.toList)
    (hfree : TrieMap.contains t attr = true → attrs.contains attr = true) :
    (TrieMap.erase (outside attrs t) attr == outside attrs t) = true := by
  have hwt := (TrieSet.lawful_of_mem hrel ht).wellFormed law
  have hout := ((reachableWith_parts law hrel hattrs).1 t ht).wellFormed law
  exact TrieMap.erase_beq_of_lacks law lawValue hout hattr
    (not_contains_outside law hattrs hwt.trie hattr hfree)

/-- Where the new attribute does not stay outside, each group keeps its tuple. -/
theorem size_nest_of_free
    (hfree : ∀ t ∈ rel.toList, TrieMap.contains t attr = true → attrs.contains attr = true) :
    (rel.nest attr attrs).size = (rel.toList.map (outside attrs)).eraseDups.length := by
  have lawTuple := TrieMap.lawfulOn_reachableWith law lawValue
  have houts := (reachableWith_parts law hrel hattrs).1
  rw [size_nest_eq_iff law lawValue hrel hattrs wrapping hattr]
  intro t ht u hu hsame _
  have herased := (houts t ht).erase law hattr
  have herased' := (houts u hu).erase law hattr
  apply lawTuple.trans (houts t ht) herased (houts u hu)
  · exact lawTuple.symm herased (houts t ht)
      (erase_outside_beq law lawValue hrel hattrs hattr ht (hfree t ht))
  · exact lawTuple.trans herased herased' (houts u hu) hsame
      (erase_outside_beq law lawValue hrel hattrs hattr hu (hfree u hu))

end Counting

end Relation

/-- **How many tuples nesting gives.**  What the tuples have outside the folded attributes makes
    the groups, and the result has a tuple for each group at most.  It has one for each exactly when
    no two different groups agree both in their first parts without the new attribute and in their
    relations; so it does where no tuple has the new attribute among those that stay. -/
theorem nest_size_counts_groups {κ ν : Type} [BEq κ] [Hashed κ] [BEq ν] [Hashed ν]
    [HoldsRelation κ ν] {ok : κ → Prop} {okValue : ν → Prop} (law : LawfulOn ok)
    (lawValue : LawfulOn okValue) (wrapping : LawfulWrapping ok okValue) {rel : Relation κ ν}
    (hrel : rel.Reachable (ReachableWith ok okValue)) {attr : κ} (hattr : ok attr)
    {attrs : TrieSet κ} (hattrs : attrs.Reachable ok) :
    let groups := (rel.toList.map (Relation.outside attrs)).eraseDups.length
    (rel.nest attr attrs).size = (rel.toList.map fun t =>
      TrieMap.insert (Relation.outside attrs t) attr
        (HoldsRelation.ofRelation (Relation.partners attrs rel t))).eraseDups.length ∧
    (rel.nest attr attrs).size ≤ groups ∧
    ((rel.nest attr attrs).size = groups ↔
      ∀ t ∈ rel.toList, ∀ u ∈ rel.toList,
        (TrieMap.erase (Relation.outside attrs t) attr ==
          TrieMap.erase (Relation.outside attrs u) attr) = true →
        (Relation.partners attrs rel t == Relation.partners attrs rel u) = true →
        (Relation.outside attrs t == Relation.outside attrs u) = true) ∧
    ((∀ t ∈ rel.toList, TrieMap.contains t attr = true → attrs.contains attr = true) →
      (rel.nest attr attrs).size = groups) := by
  intro groups
  have hwr := hrel.wellFormed (TrieMap.lawfulOn_reachableWith law lawValue)
  have hwa := hattrs.wellFormed law
  exact ⟨Relation.size_nest_eq law lawValue hwr hwa wrapping hattr,
    Relation.size_nest_le law lawValue hwr hwa wrapping hattr,
    Relation.size_nest_eq_iff law lawValue hwr hwa wrapping hattr,
    Relation.size_nest_of_free law lawValue hwr hwa wrapping hattr⟩

/-- Three tuples in two groups.  The new attribute is the one that is folded away. -/
theorem nest_size_counts_groups_ragged :
    let t (k v : Int64) : Tuple String Value := (TrieMap.unit "k" (.int k)).insert "v" (.int v)
    let rel : Relation String Value := .ofList [t 1 10, t 1 20, .unit "k" (.int 2)]
    let attrs : TrieSet String := .unit "v"
    let groups := (rel.toList.map (Relation.outside attrs)).eraseDups.length
    rel.Reachable Value.BuiltTuple ∧ attrs.contains "v" = true ∧
    (rel.nest "v" attrs).size = (rel.toList.map fun t =>
      TrieMap.insert (Relation.outside attrs t) "v"
        (Value.relation (Relation.partners attrs rel t))).eraseDups.length ∧
    (rel.nest "v" attrs).size = groups ∧
    ∀ t ∈ rel.toList, ∀ u ∈ rel.toList,
      (TrieMap.erase (Relation.outside attrs t) "v" ==
        TrieMap.erase (Relation.outside attrs u) "v") = true →
      (Relation.partners attrs rel t == Relation.partners attrs rel u) = true →
      (Relation.outside attrs t == Relation.outside attrs u) = true := by
  intro t rel attrs groups
  have law : LawfulOn fun _ : String => True := lawfulOn_true
  have ht : ∀ k v, Value.BuiltTuple (t k v) := fun k v =>
    (Value.builtTuple_unit "k" (.int k)).insert law trivial (.int v)
  have hrel : rel.Reachable Value.BuiltTuple :=
    .ofList (by simp [ht, Value.builtTuple_unit "k" (.int 2)])
  have hattrs : attrs.Reachable fun _ => True := .unit trivial
  have hin : attrs.contains "v" = true := by
    rw [TrieSet.contains_iff_mem law (hattrs.wellFormed law) trivial]
    exact ⟨"v", by simp [attrs], rfl⟩
  have hattr : (fun _ : String => True) "v" := trivial
  obtain ⟨hshown, -, hiff, hfree⟩ := nest_size_counts_groups law Value.lawfulOn_built
    Value.lawfulWrapping_built hrel hattr hattrs
  have hsize := hfree fun _ _ _ => hin
  exact ⟨hrel, hin, hshown, hsize, hiff.mp hsize⟩

/-- **Groups can be lost.**  The new attribute stays outside, and the two tuples differ in nothing
    else.  So they are two groups, but what was under the attribute is written over, and both
    become the one tuple that has there the relation of the empty tuple. -/
theorem nest_merges_groups :
    let t (i : Int64) : Tuple String Value := .unit "a" (.int i)
    let rel : Relation String Value := .ofList [t 1, t 2]
    rel.Reachable Value.BuiltTuple ∧
      (rel.toList.map (Relation.outside .empty)).eraseDups.length = 2 ∧
      (rel.nest "a" .empty).size = 1 := by
  intro t rel
  have law : LawfulOn fun _ : String => True := lawfulOn_true
  have lawTuple := Value.lawfulOn_builtTuple
  have wrapping := Value.lawfulWrapping_built
  have ht : ∀ i, Value.BuiltTuple (t i) := fun i => Value.builtTuple_unit "a" (.int i)
  have hrel : rel.Reachable Value.BuiltTuple := .ofList (by simp [ht])
  have hwr := hrel.wellFormed lawTuple
  have hattrs : (TrieSet.empty : TrieSet String).trie.WellFormed fun _ => True :=
    TrieSet.wellFormed_empty
  have hattr : (fun _ : String => True) "a" := trivial
  have hempty : Value.BuiltTuple .empty := .empty
  have hunit : (TrieSet.unit .empty).Reachable Value.BuiltTuple := .unit hempty
  have hsize : rel.size = 2 := by decide +kernel
  refine ⟨hrel, ?groups, ?merged⟩
  case groups =>
    have houtside : rel.toList.map (Relation.outside .empty) = rel.toList := List.map_id _
    rw [houtside, ← hsize]
    exact ((TrieSet.comprises_toList lawTuple hwr).size_eq lawTuple hwr).symm
  case merged =>
    have holding := wrapping.toLawfulHolding
    have hnest : (rel.nest "a" .empty).Reachable Value.BuiltTuple :=
      Relation.reachable_nest law Value.lawfulOn_built holding hwr hattr hattrs
    have hcomprises : (rel.nest "a" .empty).Comprises Value.BuiltTuple _ :=
      Relation.comprises_nest law Value.lawfulOn_built wrapping hwr hattr hattrs
    have hpacked : Value.BuiltTuple (Relation.packed "a" (.empty, .unit .empty)) :=
      Relation.reachableWith_packed law holding hattr hempty hunit
    refine TrieSet.size_eq_of_beq
      (hcomprises.beq_unit lawTuple (hnest.wellFormed lawTuple) hpacked ?_ ?_)
    · rintro _ ⟨u, hu, rfl⟩
      have hlisted := TrieSet.mem_of_mem_ofList lawTuple (by simp [ht]) hu
      obtain ⟨i, rfl⟩ : ∃ i, u = t i := by
        simp only [List.mem_cons, List.not_mem_nil, or_false] at hlisted
        exact hlisted.elim (⟨1, ·⟩) (⟨2, ·⟩)
      rw [Relation.packed_beq_iff law Value.lawfulOn_built wrapping hattr (ht i) hempty
        (Relation.reachable_partners law hwr hattrs _) hunit]
      have hwe := hempty.wellFormed law
      exact ⟨TrieMap.erase_insert_beq law Value.lawfulOn_built hwe hattr (.int i),
        Relation.partners_none_beq law Value.lawfulOn_built hwr hu⟩
    · obtain ⟨u, hu⟩ : ∃ u, u ∈ rel.toList := by
        apply List.exists_mem_of_length_pos
        rw [← TrieSet.size_eq_length hwr, hsize]
        decide
      exact ⟨_, u, hu, rfl⟩

end TrieCollections
