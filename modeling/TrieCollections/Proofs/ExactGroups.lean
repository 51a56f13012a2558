/-
  TrieCollections/Proofs/ExactGroups.lean
  =======================================
  **Nesting groups exactly.**  Two tuples belong together when they are equal outside the folded
  attributes.  What the tuples that belong with a given one have on these attributes is a relation
  of its own, which can be written down without any grouping (`partners`).  Nesting comprises, for
  each tuple, the part outside with this relation under the new attribute (`comprises_nest`):

    * the groups are gathered one tuple at a time, and each comprises what its tuples have on the
      attributes (`comprises_group`), so it equals the relation that was written down;
    * equal relations make equal values (`LawfulWrapping`), so the tuple made of a group equals
      the one made of that relation.

  Where the new attribute is not left outside, the tuple of a group shows its first part.  Then no
  two tuples of the result have equal remainders, and each tuple of the relation is found in the
  group of exactly one.
-/
import TrieCollections.Proofs.NestedGroups
import TrieCollections.Proofs.SetContents

namespace TrieCollections

open TrieMap (ReachableWith)

/-- Values hold relations faithfully, and equal relations make equal values. -/
structure LawfulWrapping {κ ν : Type} [BEq κ] [Hashed κ] [BEq ν] [Hashed ν] [HoldsRelation κ ν]
    (ok : κ → Prop) (okValue : ν → Prop) : Prop extends LawfulHolding ok okValue where
  ofRelation_congr : ∀ r q : Relation κ ν, r.Reachable (ReachableWith ok okValue) →
    q.Reachable (ReachableWith ok okValue) → (r == q) = true →
    (HoldsRelation.ofRelation r == HoldsRelation.ofRelation q : Bool) = true

theorem Value.lawfulWrapping_built : LawfulWrapping (fun _ : String => True) Value.Built where
  toLawfulHolding := lawfulHolding_built
  ofRelation_congr r q _ _ h := (beq_relation r q).trans h

namespace Relation

variable {κ ν : Type} [BEq κ] [Hashed κ] [BEq ν] [Hashed ν] {ok : κ → Prop} {okValue : ν → Prop}

/-- What the tuples that are equal to a given one outside some attributes have on these. -/
def partners (attrs : TrieSet κ) (rel : Relation κ ν) (t : Tuple κ ν) : Relation κ ν :=
  .ofList ((rel.toList.filter fun t' => outside attrs t' == outside attrs t).map
    (TrieMap.project · attrs))

/-- The tuple is what one that belongs with `t` has on the attributes. -/
def IsPartner (attrs : TrieSet κ) (rel : Relation κ ν) (t a : Tuple κ ν) : Prop :=
  ∃ t' ∈ rel.toList, (outside attrs t' == outside attrs t) = true ∧ a = TrieMap.project t' attrs

/-! ### The group of a tuple -/

section Groups

variable (law : LawfulOn ok) (lawValue : LawfulOn okValue) {rel : Relation κ ν}
  (hrel : rel.trie.WellFormed (ReachableWith ok okValue)) {attrs : TrieSet κ}
  (hattrs : attrs.trie.WellFormed ok)

include law hrel hattrs

theorem reachableWith_of_mem_partners (t : Tuple κ ν) :
    ∀ a ∈ (rel.toList.filter fun t' => outside attrs t' == outside attrs t).map
      (TrieMap.project · attrs), ReachableWith ok okValue a := by
  intro a ha
  obtain ⟨t', ht', rfl⟩ := List.mem_map.mp ha
  exact (reachableWith_parts law hrel hattrs).2 t' (List.mem_of_mem_filter ht')

theorem reachable_partners (t : Tuple κ ν) :
    (partners attrs rel t).Reachable (ReachableWith ok okValue) :=
  .ofList (reachableWith_of_mem_partners law hrel hattrs t)

include lawValue

theorem comprises_partners (t : Tuple κ ν) :
    (partners attrs rel t).Comprises (ReachableWith ok okValue) (IsPartner attrs rel t) := by
  have lawTuple := TrieMap.lawfulOn_reachableWith law lawValue
  have hlist := TrieSet.comprises_ofList lawTuple
    (reachableWith_of_mem_partners law hrel hattrs t)
  have hsame : ∀ a, a ∈ (rel.toList.filter fun t' => outside attrs t' == outside attrs t).map
      (TrieMap.project · attrs) ↔ IsPartner attrs rel t a := by
    intro a
    simp only [List.mem_map, List.mem_filter, IsPartner, and_assoc, eq_comm]
  exact ⟨fun a ha => hlist.lawful a ((hsame a).mpr ha),
    fun a ha => (hlist.contains_iff a ha).trans (by simp only [hsame])⟩

variable {e : Tuple κ ν × Relation κ ν} (he : e ∈ (rel.groupOutside attrs).toList) {t : Tuple κ ν}
  (ht : t ∈ rel.toList) (hkey : (e.1 == outside attrs t) = true)

include he ht hkey

/-- **A group comprises the partners of each tuple in it.** -/
theorem comprises_group : e.2.Comprises (ReachableWith ok okValue) (IsPartner attrs rel t) := by
  have lawTuple := TrieMap.lawfulOn_reachableWith law lawValue
  have hgroups := wellFormed_groupOutside law lawValue hrel hattrs
  obtain ⟨houts, hparts⟩ := reachableWith_parts law hrel hattrs
  have hoke := TrieMap.lawful_of_mem hgroups.trie he
  refine ⟨(comprises_partners law lawValue hrel hattrs t).lawful, ?_⟩
  intro a ha
  rw [← TrieMap.getD_of_mem lawTuple hgroups.trie he .empty]
  have hgathered := TrieMap.contains_gather lawTuple lawTuple houts hparts hoke ha
  refine hgathered.trans ?_
  constructor
  · rintro ⟨t', ht', hkey', heq⟩
    have hsame := lawTuple.trans (houts t' ht') hoke (houts t ht)
      (lawTuple.symm hoke (houts t' ht') hkey') hkey
    exact ⟨_, ⟨t', ht', hsame, rfl⟩, heq⟩
  · rintro ⟨_, ⟨t', ht', hsame, rfl⟩, heq⟩
    exact ⟨t', ht', lawTuple.trans hoke (houts t ht) (houts t' ht') hkey
      (lawTuple.symm (houts t' ht') (houts t ht) hsame), heq⟩

theorem group_beq_partners : (e.2 == partners attrs rel t) = true := by
  have lawTuple := TrieMap.lawfulOn_reachableWith law lawValue
  have hgroups := wellFormed_groupOutside law lawValue hrel hattrs
  exact (comprises_group law lawValue hrel hattrs he ht hkey).beq lawTuple
    (comprises_partners law lawValue hrel hattrs t)
    ((hgroups.values e he).wellFormed lawTuple)
    ((reachable_partners law hrel hattrs t).wellFormed lawTuple)

end Groups

/-! ### The nested relation -/

section Nested

variable [HoldsRelation κ ν] (law : LawfulOn ok) (lawValue : LawfulOn okValue)
  (wrapping : LawfulWrapping ok okValue) {rel : Relation κ ν}
  (hrel : rel.trie.WellFormed (ReachableWith ok okValue)) {attr : κ} (hattr : ok attr)
  {attrs : TrieSet κ} (hattrs : attrs.trie.WellFormed ok)

include law lawValue wrapping hrel hattr hattrs

/-- The tuple of a group is the one made of the partners of each tuple in it. -/
theorem packed_beq {e : Tuple κ ν × Relation κ ν} (he : e ∈ (rel.groupOutside attrs).toList)
    {t : Tuple κ ν} (ht : t ∈ rel.toList) (hkey : (e.1 == outside attrs t) = true) :
    (packed attr e == packed attr (outside attrs t, partners attrs rel t)) = true := by
  have lawTuple := TrieMap.lawfulOn_reachableWith law lawValue
  have hgroups := wellFormed_groupOutside law lawValue hrel hattrs
  have hgroup := hgroups.values e he
  have hpartners := reachable_partners law hrel hattrs t
  have hoke := (TrieMap.lawful_of_mem hgroups.trie he).wellFormed law
  have hout := ((reachableWith_parts law hrel hattrs).1 t ht).wellFormed law
  exact TrieMap.insert_congr law lawValue hoke hout hkey hattr hattr (law.refl hattr)
    (wrapping.okValue_ofRelation _ hgroup) (wrapping.okValue_ofRelation _ hpartners)
    (wrapping.ofRelation_congr _ _ hgroup hpartners
      (group_beq_partners law lawValue hrel hattrs he ht hkey))

/-- **Nesting comprises one tuple for each tuple's partners.** -/
theorem comprises_nest : (rel.nest attr attrs).Comprises (ReachableWith ok okValue)
    fun u => ∃ t ∈ rel.toList, u = packed attr (outside attrs t, partners attrs rel t) := by
  have lawTuple := TrieMap.lawfulOn_reachableWith law lawValue
  have hpacked :=
    reachableWith_of_mem_packed law lawValue wrapping.toLawfulHolding hrel hattr hattrs
  have houts := (reachableWith_parts law hrel hattrs).1
  have hlist := TrieSet.comprises_ofList lawTuple hpacked
  rw [nest_eq]
  refine hlist.redescribe lawTuple ?_ ?_ ?_
  · rintro _ ⟨t, ht, rfl⟩
    exact (houts t ht).insert law hattr
      (wrapping.okValue_ofRelation _ (reachable_partners law hrel hattrs t))
  · intro u hu
    obtain ⟨e, he, rfl⟩ := List.mem_map.mp hu
    obtain ⟨t, ht, hkey⟩ := exists_of_mem_groupOutside law lawValue hrel hattrs he
    have hsame : (e.1 == outside attrs t) = true := by
      rw [hkey]
      exact lawTuple.refl (houts t ht)
    exact ⟨_, ⟨t, ht, rfl⟩, packed_beq law lawValue wrapping hrel hattr hattrs he ht hsame⟩
  · rintro _ ⟨t, ht, rfl⟩
    have hgroups := wellFormed_groupOutside law lawValue hrel hattrs
    obtain ⟨e, he, hkey, -⟩ := exists_group law lawValue hrel hattrs ht
    have hoke := TrieMap.lawful_of_mem hgroups.trie he
    have hsame := packed_beq law lawValue wrapping hrel hattr hattrs he ht
      (lawTuple.symm (houts t ht) hoke hkey)
    refine ⟨_, List.mem_map_of_mem he, lawTuple.symm (hpacked _ (List.mem_map_of_mem he)) ?_ hsame⟩
    exact (houts t ht).insert law hattr
      (wrapping.okValue_ofRelation _ (reachable_partners law hrel hattrs t))

/-- No group is empty. -/
theorem nested?_of_mem_nest {u : Tuple κ ν} (hu : u ∈ (rel.nest attr attrs).toList) :
    ∃ g, nested? attr u = some g ∧ g.isEmpty = false := by
  have lawTuple := TrieMap.lawfulOn_reachableWith law lawValue
  have hgroups := wellFormed_groupOutside law lawValue hrel hattrs
  obtain ⟨e, he, rfl⟩ :=
    exists_of_mem_nest law lawValue wrapping.toLawfulHolding hrel hattr hattrs hu
  have hoke := TrieMap.lawful_of_mem hgroups.trie he
  have hgroup := hgroups.values e he
  refine ⟨e.2, nested?_packed law wrapping.toLawfulHolding hattr hoke hgroup, ?_⟩
  obtain ⟨t, ht, hkey⟩ := exists_of_mem_groupOutside law lawValue hrel hattrs he
  have hrefl := lawTuple.refl ((reachableWith_parts law hrel hattrs).1 t ht)
  have hsame : (e.1 == outside attrs t) = true := by
    rw [hkey]
    exact hrefl
  have hcomprises := comprises_group law lawValue hrel hattrs he ht hsame
  obtain ⟨a, ha, -⟩ := hcomprises.exists_mem lawTuple (hgroup.wellFormed lawTuple)
    ⟨t, ht, hrefl, rfl⟩
  rw [Bool.eq_false_iff, ne_eq, TrieSet.isEmpty_iff (hgroup.wellFormed lawTuple)]
  exact List.ne_nil_of_mem ha

variable (hfree : ∀ t ∈ rel.toList, TrieMap.contains t attr = true → attrs.contains attr = true)

include hfree

/-- **The remainder tells a tuple of the result.** -/
theorem eq_of_erase_beq {u v : Tuple κ ν} (hu : u ∈ (rel.nest attr attrs).toList)
    (hv : v ∈ (rel.nest attr attrs).toList)
    (heq : (TrieMap.erase u attr == TrieMap.erase v attr) = true) : u = v := by
  have lawTuple := TrieMap.lawfulOn_reachableWith law lawValue
  have holding := wrapping.toLawfulHolding
  have hgroups := wellFormed_groupOutside law lawValue hrel hattrs
  have hnest := (reachable_nest law lawValue holding hrel hattr hattrs).wellFormed lawTuple
  obtain ⟨e, he, rfl⟩ := exists_of_mem_nest law lawValue holding hrel hattr hattrs hu
  obtain ⟨e', he', rfl⟩ := exists_of_mem_nest law lawValue holding hrel hattr hattrs hv
  have hoke := TrieMap.lawful_of_mem hgroups.trie he
  have hoke' := TrieMap.lawful_of_mem hgroups.trie he'
  have hgroup := hgroups.values e he
  have hgroup' := hgroups.values e' he'
  have herased := erase_packed law lawValue holding hattr hoke hgroup
    (not_contains_key law lawValue hrel hattrs hattr hfree he)
  have herased' := erase_packed law lawValue holding hattr hoke' hgroup'
    (not_contains_key law lawValue hrel hattrs hattr hfree he')
  have herase := (reachableWith_packed law holding hattr hoke hgroup).erase law hattr
  have herase' := (reachableWith_packed law holding hattr hoke' hgroup').erase law hattr
  have hkeys := lawTuple.trans hoke herase hoke' (lawTuple.symm herase hoke herased)
    (lawTuple.trans herase herase' hoke' heq herased')
  -- under equal keys stands one group, so the two tuples are made of equal parts
  have hsame := TrieMap.value_eq_of_mem lawTuple hgroups.trie he he' hkeys
  have hokv := wrapping.okValue_ofRelation _ hgroup'
  apply TrieSet.eq_of_mem_of_beq lawTuple hnest hu hv
  rw [packed, packed, hsame]
  exact TrieMap.insert_congr law lawValue (hoke.wellFormed law) (hoke'.wellFormed law) hkeys hattr
    hattr (law.refl hattr) hokv hokv (lawValue.refl hokv)

/-- **Each tuple is found in exactly one group.** -/
theorem existsUnique_mem_nest {t : Tuple κ ν} (ht : t ∈ rel.toList) :
    ∃! u, u ∈ (rel.nest attr attrs).toList ∧
      (TrieMap.erase u attr == outside attrs t) = true ∧
      ∃ g, nested? attr u = some g ∧ g.contains (TrieMap.project t attrs) = true := by
  have lawTuple := TrieMap.lawfulOn_reachableWith law lawValue
  have holding := wrapping.toLawfulHolding
  have hgroups := wellFormed_groupOutside law lawValue hrel hattrs
  have hnest := (reachable_nest law lawValue holding hrel hattr hattrs).wellFormed lawTuple
  have hout := (reachableWith_parts law hrel hattrs).1 t ht
  have hokerase : ∀ u ∈ (rel.nest attr attrs).toList,
      ReachableWith ok okValue (TrieMap.erase u attr) := fun u hu =>
    (TrieSet.lawful_of_mem hnest hu).erase law hattr
  obtain ⟨e₀, he₀, hkey₀, -⟩ := exists_group law lawValue hrel hattrs ht
  obtain ⟨e, he, hu, hkeys, -⟩ :=
    exists_mem_nest law lawValue holding hrel hattr hattrs hfree he₀
  have hoke₀ := TrieMap.lawful_of_mem hgroups.trie he₀
  have hoke := TrieMap.lawful_of_mem hgroups.trie he
  have hgroup := hgroups.values e he
  have hkey := lawTuple.trans hoke hoke₀ hout hkeys (lawTuple.symm hout hoke₀ hkey₀)
  have herased := erase_packed law lawValue holding hattr hoke hgroup
    (not_contains_key law lawValue hrel hattrs hattr hfree he)
  have hremainder := lawTuple.trans (hokerase _ hu) hoke hout herased hkey
  have hcomprises := comprises_group law lawValue hrel hattrs he ht hkey
  refine ⟨packed attr e, ⟨hu, hremainder, e.2, nested?_packed law holding hattr hoke hgroup,
    hcomprises.contains lawTuple ⟨t, ht, lawTuple.refl hout, rfl⟩⟩, ?_⟩
  rintro v ⟨hv, hremainder', -⟩
  exact eq_of_erase_beq law lawValue wrapping hrel hattr hattrs hfree hv hu
    (lawTuple.trans (hokerase v hv) hout (hokerase _ hu) hremainder'
      (lawTuple.symm (hokerase _ hu) hout hremainder))

end Nested

end Relation

/-- **Nesting groups exactly.**  As long as no tuple has the new attribute among those that stay,
    a tuple is in the result exactly when it is made of some tuple of the relation: what this one
    has outside the attributes, with the relation under the new attribute of what all tuples that
    are equal to it there have on them.  Of the two parts of a tuple each has what the tuple has on
    its side of the attributes, and nothing on the other.  So no tuple of the result holds an empty
    relation, no two are equal without the new attribute, and each tuple of the relation is found in
    exactly one group.  The tuples need not have one header. -/
theorem nest_groups_exactly {κ ν : Type} [BEq κ] [Hashed κ] [BEq ν] [Hashed ν] [HoldsRelation κ ν]
    {ok : κ → Prop} {okValue : ν → Prop} (law : LawfulOn ok) (lawValue : LawfulOn okValue)
    (wrapping : LawfulWrapping ok okValue) {rel : Relation κ ν}
    (hrel : rel.Reachable (ReachableWith ok okValue)) {attr : κ} (hattr : ok attr)
    {attrs : TrieSet κ} (hattrs : attrs.Reachable ok)
    (hfree : ∀ t ∈ rel.toList, TrieMap.contains t attr = true → attrs.contains attr = true) :
    (rel.nest attr attrs).Reachable (ReachableWith ok okValue) ∧
    (∀ u, ReachableWith ok okValue u →
      ((rel.nest attr attrs).contains u = true ↔
        ∃ t ∈ rel.toList, (u == TrieMap.insert (Relation.outside attrs t) attr
          (HoldsRelation.ofRelation (Relation.partners attrs rel t))) = true)) ∧
    (∀ t a, ReachableWith ok okValue a →
      ((Relation.partners attrs rel t).contains a = true ↔
        ∃ t' ∈ rel.toList, (Relation.outside attrs t' == Relation.outside attrs t) = true ∧
          (a == TrieMap.project t' attrs) = true)) ∧
    (∀ t ∈ rel.toList, ∀ k, ok k →
      (Relation.outside attrs t).get? k =
        (if attrs.contains k then none else TrieMap.get? t k) ∧
      (TrieMap.project t attrs).get? k =
        if attrs.contains k then TrieMap.get? t k else none) ∧
    (∀ u ∈ (rel.nest attr attrs).toList, ∃ g, Relation.nested? attr u = some g ∧
      g.isEmpty = false) ∧
    ((rel.nest attr attrs).toList.Pairwise fun u v =>
      (TrieMap.erase u attr == TrieMap.erase v attr) = false) ∧
    ∀ t ∈ rel.toList, ∃! u, u ∈ (rel.nest attr attrs).toList ∧
      (TrieMap.erase u attr == Relation.outside attrs t) = true ∧
      ∃ g, Relation.nested? attr u = some g ∧ g.contains (TrieMap.project t attrs) = true := by
  have lawTuple := TrieMap.lawfulOn_reachableWith law lawValue
  have hwr := hrel.wellFormed lawTuple
  have hwa := hattrs.wellFormed law
  have hreachable :=
    Relation.reachable_nest law lawValue wrapping.toLawfulHolding hwr hattr hwa
  have hnest := hreachable.wellFormed lawTuple
  refine ⟨hreachable, ?made, ?partners, ?parts, ?held, ?apart, ?found⟩
  case made =>
    intro u hu
    rw [(Relation.comprises_nest law lawValue wrapping hwr hattr hwa).contains_iff u hu]
    constructor
    · rintro ⟨_, ⟨t, ht, rfl⟩, heq⟩
      exact ⟨t, ht, heq⟩
    · rintro ⟨t, ht, heq⟩
      exact ⟨_, ⟨t, ht, rfl⟩, heq⟩
  case partners =>
    intro t a ha
    rw [(Relation.comprises_partners law lawValue hwr hwa t).contains_iff a ha]
    constructor
    · rintro ⟨_, ⟨t', ht', hsame, rfl⟩, heq⟩
      exact ⟨t', ht', hsame, heq⟩
    · rintro ⟨t', ht', hsame, heq⟩
      exact ⟨_, ⟨t', ht', hsame, rfl⟩, heq⟩
  case parts =>
    intro t ht k hk
    have hwt := ((TrieSet.lawful_of_mem hwr ht).wellFormed law).trie
    exact ⟨Relation.get?_outside law hwa hwt hk, TrieMap.get?_project law hwt hwa hk⟩
  case held =>
    intro u hu
    exact Relation.nested?_of_mem_nest law lawValue wrapping hwr hattr hwa hu
  case apart =>
    refine (TrieSet.distinct_toList lawTuple hnest).pairwise.imp_of_mem ?_
    intro u v hu hv hne
    rw [Bool.eq_false_iff]
    intro heq
    have hsame :=
      Relation.eq_of_erase_beq law lawValue wrapping hwr hattr hwa hfree hu hv heq
    rw [hsame, lawTuple.refl (TrieSet.lawful_of_mem hnest hv)] at hne
    cases hne
  case found =>
    intro t ht
    exact Relation.existsUnique_mem_nest law lawValue wrapping hwr hattr hwa hfree ht

/-- Tuples with different attributes.  The new attribute is the one that is folded away, and what
    stood under it is a number in one tuple, a relation in another and nothing in a third. -/
theorem nest_groups_exactly_ragged :
    let one : Tuple String Value := (TrieMap.unit "k" (.int 1)).insert "v" (.int 10)
    let two : Tuple String Value :=
      (TrieMap.unit "k" (.int 1)).insert "v" (.relation (.unit (.unit "w" (.int 7))))
    let three : Tuple String Value := .unit "w" (.int 3)
    let rel : Relation String Value := ((TrieSet.unit one).insert two).insert three
    let attrs : TrieSet String := .unit "v"
    rel.Reachable Value.BuiltTuple ∧ attrs.contains "v" = true ∧
    (rel.nest "v" attrs).Reachable Value.BuiltTuple ∧
    (∀ u, Value.BuiltTuple u →
      ((rel.nest "v" attrs).contains u = true ↔
        ∃ t ∈ rel.toList, (u == TrieMap.insert (Relation.outside attrs t) "v"
          (Value.relation (Relation.partners attrs rel t))) = true)) ∧
    (∀ t a, Value.BuiltTuple a →
      ((Relation.partners attrs rel t).contains a = true ↔
        ∃ t' ∈ rel.toList, (Relation.outside attrs t' == Relation.outside attrs t) = true ∧
          (a == TrieMap.project t' attrs) = true)) ∧
    (∀ t ∈ rel.toList, ∀ k, True →
      (Relation.outside attrs t).get? k =
        (if attrs.contains k then none else TrieMap.get? t k) ∧
      (TrieMap.project t attrs).get? k =
        if attrs.contains k then TrieMap.get? t k else none) ∧
    (∀ u ∈ (rel.nest "v" attrs).toList, ∃ g, Relation.nested? "v" u = some g ∧
      g.isEmpty = false) ∧
    ((rel.nest "v" attrs).toList.Pairwise fun u v =>
      (TrieMap.erase u "v" == TrieMap.erase v "v") = false) ∧
    ∀ t ∈ rel.toList, ∃! u, u ∈ (rel.nest "v" attrs).toList ∧
      (TrieMap.erase u "v" == Relation.outside attrs t) = true ∧
      ∃ g, Relation.nested? "v" u = some g ∧ g.contains (TrieMap.project t attrs) = true := by
  intro one two three rel attrs
  have law : LawfulOn fun _ : String => True := lawfulOn_true
  have hkey := Value.builtTuple_unit "k" (.int 1)
  have hheld := Value.built_relation (.unit (Value.builtTuple_unit "w" (.int 7)))
  have hone : Value.BuiltTuple one := hkey.insert law trivial (.int 10)
  have htwo : Value.BuiltTuple two := hkey.insert law trivial hheld
  have hthree : Value.BuiltTuple three := Value.builtTuple_unit "w" (.int 3)
  have hrel : rel.Reachable Value.BuiltTuple := .insert (.insert (.unit hone) htwo) hthree
  have hin : attrs.contains "v" = true := by
    rw [TrieSet.contains_iff_mem law (TrieSet.Reachable.unit trivial |>.wellFormed law) trivial]
    exact ⟨"v", by simp, rfl⟩
  exact ⟨hrel, hin, nest_groups_exactly law Value.lawfulOn_built Value.lawfulWrapping_built hrel
    trivial (.unit trivial) fun _ _ _ => hin⟩

end TrieCollections
