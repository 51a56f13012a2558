/-
  TrieCollections/Proofs/NestedGroups.lean
  ========================================
  **Unnesting undoes nesting.**  To nest is to take each tuple apart, into what it has outside
  some attributes and what it has on them, and to gather the second parts under the first.
  Each group then becomes one tuple, with its parts as a relation under the new attribute.

    * The two parts of a tuple make it up again (`update_outside_project`).
    * As long as the first parts do not have the new attribute, the tuple of a group shows its
      group: taking the attribute away gives the first part back (`erase_packed`).  So the tuples
      of different groups are different, and what the relation keeps of them is all of them
      (`exists_mem_nest`).
    * The expansion of such a tuple puts the parts of its group on its first part, one after the
      other, and these are the tuples that were taken apart (`unpacked_beq`).

  The new attribute may be one of those that were folded away.  It is then not left outside, and
  it comes back with the parts.
-/
import TrieCollections.Proofs.Expansions
import TrieCollections.Proofs.Gathering

namespace TrieCollections

open TrieMap (ReachableWith)

namespace Relation

variable {κ ν : Type} [BEq κ] [Hashed κ] [Hashed ν] {ok : κ → Prop} {okValue : ν → Prop}

/-- What a tuple has outside some attributes. -/
def outside (attrs : TrieSet κ) (t : Tuple κ ν) : Tuple κ ν := TrieMap.eraseMany t attrs.toList

/-- The tuple that a group becomes. -/
def packed [HoldsRelation κ ν] (attr : κ) (e : Tuple κ ν × Relation κ ν) : Tuple κ ν :=
  TrieMap.insert e.1 attr (HoldsRelation.ofRelation e.2)

/-! ### The two parts of a tuple -/

section Parts

variable (law : LawfulOn ok) {attrs : TrieSet κ} (hattrs : attrs.trie.WellFormed ok)
  {t : Tuple κ ν}

include law hattrs

theorem reachableWith_outside (ht : ReachableWith ok okValue t) :
    ReachableWith ok okValue (outside attrs t) :=
  ht.eraseMany law fun _ hk => TrieSet.lawful_of_mem hattrs hk

theorem get?_outside (ht : t.trie.WellFormed ok) {k : κ} (hk : ok k) :
    (outside attrs t).get? k = if attrs.contains k then none else TrieMap.get? t k := by
  rw [outside, TrieMap.get?_eraseMany law ht (fun l hl => TrieSet.lawful_of_mem hattrs hl) hk,
    TrieSet.any_toList law hattrs hk]

theorem contains_outside (ht : t.trie.WellFormed ok) {k : κ} (hk : ok k) :
    (outside attrs t).contains k = (!attrs.contains k && TrieMap.contains t k) := by
  rw [TrieMap.contains, get?_outside law hattrs ht hk, TrieMap.contains]
  cases attrs.contains k <;> rfl

/-- An attribute that a tuple has at most among those taken away is not left outside. -/
theorem not_contains_outside (ht : t.trie.WellFormed ok) {k : κ} (hk : ok k)
    (hfree : TrieMap.contains t k = true → attrs.contains k = true) :
    (outside attrs t).contains k = false := by
  rw [contains_outside law hattrs ht hk]
  cases hc : TrieMap.contains t k
  · exact Bool.and_false _
  · rw [hfree hc]
    rfl

/-- **The two parts of a tuple make it up again.** -/
theorem update_outside_project [BEq ν] (lawValue : LawfulOn okValue)
    (ht : ReachableWith ok okValue t) :
    ((outside attrs t).update (TrieMap.project t attrs) == t) = true := by
  have hout := (reachableWith_outside law hattrs ht).wellFormed law
  have hpart := (ht.project law hattrs).wellFormed law
  have hwt := ht.wellFormed law
  apply TrieMap.beq_of_get?_eq law lawValue (hout.update law hpart) hwt
  intro k hk
  rw [TrieMap.get?_update law hout.trie hpart.trie hk, get?_outside law hattrs hwt.trie hk,
    TrieMap.get?_project law hwt.trie hattrs hk]
  cases attrs.contains k <;> simp

end Parts

variable [BEq ν]

/-! ### The groups -/

section Groups

variable (law : LawfulOn ok) (lawValue : LawfulOn okValue) {rel : Relation κ ν}
  (hrel : rel.trie.WellFormed (ReachableWith ok okValue)) {attrs : TrieSet κ}
  (hattrs : attrs.trie.WellFormed ok)

include law hrel hattrs

theorem reachableWith_parts :
    (∀ t ∈ rel.toList, ReachableWith ok okValue (outside attrs t)) ∧
      ∀ t ∈ rel.toList, ReachableWith ok okValue (TrieMap.project t attrs) :=
  ⟨fun _ ht => reachableWith_outside law hattrs (TrieSet.lawful_of_mem hrel ht),
    fun _ ht => (TrieSet.lawful_of_mem hrel ht).project law hattrs⟩

include lawValue

theorem wellFormed_groupOutside : (rel.groupOutside attrs).WellFormed (ReachableWith ok okValue)
    fun group => group.Reachable (ReachableWith ok okValue) := by
  have lawTuple := TrieMap.lawfulOn_reachableWith law lawValue
  obtain ⟨hkeys, hparts⟩ := reachableWith_parts law hrel hattrs
  exact TrieMap.reachable_gather lawTuple hkeys hparts

variable {e : Tuple κ ν × Relation κ ν}

/-- The first part of a group is that of some tuple. -/
theorem exists_of_mem_groupOutside (he : e ∈ (rel.groupOutside attrs).toList) :
    ∃ t ∈ rel.toList, e.1 = outside attrs t := by
  have lawTuple := TrieMap.lawfulOn_reachableWith law lawValue
  exact TrieMap.exists_of_mem_gather lawTuple (reachableWith_parts law hrel hattrs).1 he

/-- An attribute that tuples have at most among those taken away is in the first part of no
    group. -/
theorem not_contains_key {attr : κ} (hattr : ok attr)
    (hfree : ∀ t ∈ rel.toList, TrieMap.contains t attr = true → attrs.contains attr = true)
    (he : e ∈ (rel.groupOutside attrs).toList) : TrieMap.contains e.1 attr = false := by
  obtain ⟨t, ht, hkey⟩ := exists_of_mem_groupOutside law lawValue hrel hattrs he
  have hwt := ((TrieSet.lawful_of_mem hrel ht).wellFormed law).trie
  rw [hkey]
  exact not_contains_outside law hattrs hwt hattr (hfree t ht)

/-- **What is in a group was taken from a tuple**, whose first part is that of the group. -/
theorem exists_of_mem_group (he : e ∈ (rel.groupOutside attrs).toList) {a : Tuple κ ν}
    (ha : a ∈ e.2.toList) :
    ∃ t ∈ rel.toList, (e.1 == outside attrs t) = true ∧
      (a == TrieMap.project t attrs) = true := by
  have lawTuple := TrieMap.lawfulOn_reachableWith law lawValue
  have hgroups := wellFormed_groupOutside law lawValue hrel hattrs
  obtain ⟨hkeys, hparts⟩ := reachableWith_parts law hrel hattrs
  have hgroup := (hgroups.values e he).wellFormed lawTuple
  have hkey := TrieMap.lawful_of_mem hgroups.trie he
  have hcontains := TrieSet.contains_of_mem lawTuple hgroup ha
  rw [← TrieMap.getD_of_mem lawTuple hgroups.trie he .empty] at hcontains
  exact (TrieMap.contains_gather lawTuple lawTuple hkeys hparts hkey
    (TrieSet.lawful_of_mem hgroup ha)).mp hcontains

/-- **Every tuple is taken apart into a group.** -/
theorem exists_group {t : Tuple κ ν} (ht : t ∈ rel.toList) :
    ∃ e ∈ (rel.groupOutside attrs).toList, (outside attrs t == e.1) = true ∧
      ∃ a ∈ e.2.toList, (TrieMap.project t attrs == a) = true := by
  have lawTuple := TrieMap.lawfulOn_reachableWith law lawValue
  have hgroups := wellFormed_groupOutside law lawValue hrel hattrs
  obtain ⟨hkeys, hparts⟩ := reachableWith_parts law hrel hattrs
  have hkey := hkeys t ht
  have hpart := hparts t ht
  have hcontains : ((rel.groupOutside attrs).getD (outside attrs t) .empty).contains
      (TrieMap.project t attrs) = true :=
    (TrieMap.contains_gather lawTuple lawTuple hkeys hparts hkey hpart).mpr
      ⟨t, ht, lawTuple.refl hkey, lawTuple.refl hpart⟩
  rcases hget : (rel.groupOutside attrs).get? (outside attrs t) with _ | group
  · rw [TrieMap.getD, hget] at hcontains
    cases hcontains
  · obtain ⟨e, he, hte, rfl⟩ := (TrieMap.get?_eq_some_iff_mem lawTuple hgroups.trie hkey).mp hget
    rw [TrieMap.getD, hget] at hcontains
    have hgroup := (hgroups.values e he).wellFormed lawTuple
    exact ⟨e, he, hte, (TrieSet.contains_iff_mem lawTuple hgroup hpart).mp hcontains⟩

end Groups

variable [HoldsRelation κ ν]

theorem nest_eq (rel : Relation κ ν) (attr : κ) (attrs : TrieSet κ) :
    rel.nest attr attrs =
      .ofList ((rel.groupOutside attrs).toList.map (packed attr)) := by
  rw [nest, TrieMap.fold, TrieSet.ofList, TrieSet.insertMany, List.foldl_map]
  rfl

/-! ### The tuple of a group -/

section Packed

variable (law : LawfulOn ok) (lawValue : LawfulOn okValue) (holding : LawfulHolding ok okValue)
  {attr : κ} (hattr : ok attr) {e e' : Tuple κ ν × Relation κ ν}
  (hkey : ReachableWith ok okValue e.1) (hgroup : e.2.Reachable (ReachableWith ok okValue))
  (hlacks : TrieMap.contains e.1 attr = false)

include law hattr

include holding hkey hgroup

theorem reachableWith_packed : ReachableWith ok okValue (packed attr e) :=
  hkey.insert law hattr (holding.okValue_ofRelation e.2 hgroup)

theorem nested?_packed : nested? attr (packed attr e) = some e.2 := by
  rw [packed, nested?_insert law (hkey.wellFormed law).trie hattr hattr, law.refl hattr]
  exact holding.asRelation?_ofRelation e.2 hgroup

include lawValue hlacks

/-- Without the new attribute, the tuple of a group is its first part. -/
theorem erase_packed : (TrieMap.erase (packed attr e) attr == e.1) = true := by
  have lawTuple := TrieMap.lawfulOn_reachableWith law lawValue
  have hwk := hkey.wellFormed law
  have hpacked := (reachableWith_packed law holding hattr hkey hgroup).erase law hattr
  apply lawTuple.trans hpacked (hkey.erase law hattr) hkey
  · exact TrieMap.erase_insert_beq law lawValue hwk hattr (holding.okValue_ofRelation e.2 hgroup)
  · exact TrieMap.erase_beq_of_lacks law lawValue hwk hattr hlacks

/-- The tuple of a group shows the first part of the group. -/
theorem key_beq_of_packed_beq (hkey' : ReachableWith ok okValue e'.1)
    (hgroup' : e'.2.Reachable (ReachableWith ok okValue))
    (hlacks' : TrieMap.contains e'.1 attr = false) (h : (packed attr e == packed attr e') = true) :
    (e.1 == e'.1) = true := by
  have lawTuple := TrieMap.lawfulOn_reachableWith law lawValue
  have hpacked := reachableWith_packed law holding hattr hkey hgroup
  have hpacked' := reachableWith_packed law holding hattr hkey' hgroup'
  have herased := erase_packed law lawValue holding hattr hkey hgroup hlacks
  have herased' := erase_packed law lawValue holding hattr hkey' hgroup' hlacks'
  have hsame := TrieMap.erase_congr law lawValue (hpacked.wellFormed law)
    (hpacked'.wellFormed law) h hattr hattr (law.refl hattr)
  have herase := hpacked.erase law hattr
  have herase' := hpacked'.erase law hattr
  exact lawTuple.trans hkey herase hkey' (lawTuple.symm herase hkey herased)
    (lawTuple.trans herase herase' hkey' hsame herased')

/-- A part put on the tuple of its group makes up the tuple that it was taken from. -/
theorem unpacked_beq {attrs : TrieSet κ} (hattrs : attrs.trie.WellFormed ok) {t a : Tuple κ ν}
    (ht : ReachableWith ok okValue t) (ha : ReachableWith ok okValue a)
    (houter : (e.1 == outside attrs t) = true) (hinner : (a == TrieMap.project t attrs) = true) :
    ((TrieMap.erase (packed attr e) attr).update a == t) = true := by
  have lawTuple := TrieMap.lawfulOn_reachableWith law lawValue
  have herase := (reachableWith_packed law holding hattr hkey hgroup).erase law hattr
  have hout := reachableWith_outside law hattrs ht
  have hpart := ht.project law hattrs
  have herased := erase_packed law lawValue holding hattr hkey hgroup hlacks
  have hparts := TrieMap.update_congr law lawValue (herase.wellFormed law) (hout.wellFormed law)
    (lawTuple.trans herase hkey hout herased houter) (ha.wellFormed law) (hpart.wellFormed law)
    hinner
  exact lawTuple.trans (herase.update law ha) (hout.update law hpart) ht hparts
    (update_outside_project law hattrs lawValue ht)

end Packed

/-! ### The nested relation -/

section Nested

variable (law : LawfulOn ok) (lawValue : LawfulOn okValue) (holding : LawfulHolding ok okValue)
  {rel : Relation κ ν} (hrel : rel.trie.WellFormed (ReachableWith ok okValue)) {attr : κ}
  (hattr : ok attr) {attrs : TrieSet κ} (hattrs : attrs.trie.WellFormed ok)

include law lawValue holding hrel hattr hattrs

theorem reachableWith_of_mem_packed :
    ∀ u ∈ (rel.groupOutside attrs).toList.map (packed attr), ReachableWith ok okValue u := by
  intro u hu
  obtain ⟨e, he, rfl⟩ := List.mem_map.mp hu
  have hgroups := wellFormed_groupOutside law lawValue hrel hattrs
  exact reachableWith_packed law holding hattr (TrieMap.lawful_of_mem hgroups.trie he)
    (hgroups.values e he)

theorem reachable_nest : (rel.nest attr attrs).Reachable (ReachableWith ok okValue) := by
  rw [nest_eq]
  exact .ofList (reachableWith_of_mem_packed law lawValue holding hrel hattr hattrs)

/-- What nesting gives are tuples of groups. -/
theorem exists_of_mem_nest {u : Tuple κ ν} (hu : u ∈ (rel.nest attr attrs).toList) :
    ∃ e ∈ (rel.groupOutside attrs).toList, packed attr e = u := by
  have lawTuple := TrieMap.lawfulOn_reachableWith law lawValue
  rw [nest_eq] at hu
  exact List.mem_map.mp (TrieSet.mem_of_mem_ofList lawTuple
    (reachableWith_of_mem_packed law lawValue holding hrel hattr hattrs) hu)

variable (hfree : ∀ t ∈ rel.toList, TrieMap.contains t attr = true → attrs.contains attr = true)

include hfree

/-- **No group is lost**: of each group the result keeps a tuple with an equal first part and
    the very same relation. -/
theorem exists_mem_nest {e : Tuple κ ν × Relation κ ν}
    (he : e ∈ (rel.groupOutside attrs).toList) :
    ∃ e' ∈ (rel.groupOutside attrs).toList, packed attr e' ∈ (rel.nest attr attrs).toList ∧
      (e'.1 == e.1) = true ∧ e'.2 = e.2 := by
  have lawTuple := TrieMap.lawfulOn_reachableWith law lawValue
  have hgroups := wellFormed_groupOutside law lawValue hrel hattrs
  have hpacked := reachableWith_of_mem_packed law lawValue holding hrel hattr hattrs
  have hmem := List.mem_map_of_mem (f := packed attr) he
  have hcontains : (rel.nest attr attrs).contains (packed attr e) = true := by
    rw [nest_eq, TrieSet.contains_ofList lawTuple hpacked (hpacked _ hmem), List.any_eq_true]
    exact ⟨_, hmem, lawTuple.refl (hpacked _ hmem)⟩
  have hnest := (reachable_nest law lawValue holding hrel hattr hattrs).wellFormed lawTuple
  rw [TrieSet.contains_iff_mem lawTuple hnest (hpacked _ hmem)] at hcontains
  obtain ⟨u, hu, heq⟩ := hcontains
  obtain ⟨e', he', rfl⟩ := exists_of_mem_nest law lawValue holding hrel hattr hattrs hu
  have hkey := TrieMap.lawful_of_mem hgroups.trie he
  have hkey' := TrieMap.lawful_of_mem hgroups.trie he'
  have hkeys := key_beq_of_packed_beq law lawValue holding hattr hkey (hgroups.values e he)
    (not_contains_key law lawValue hrel hattrs hattr hfree he) hkey'
    (hgroups.values e' he') (not_contains_key law lawValue hrel hattrs hattr hfree he') heq
  have hkeys' := lawTuple.symm hkey hkey' hkeys
  exact ⟨e', he', hu, hkeys', TrieMap.value_eq_of_mem lawTuple hgroups.trie he' he hkeys'⟩

/-- The tuple of a group stands for the tuples that went into the group. -/
theorem exists_of_mem_expansion_packed {e : Tuple κ ν × Relation κ ν}
    (he : e ∈ (rel.groupOutside attrs).toList) {x : Tuple κ ν}
    (hx : x ∈ expansion attr (packed attr e)) : ∃ t ∈ rel.toList, (x == t) = true := by
  have lawTuple := TrieMap.lawfulOn_reachableWith law lawValue
  have hgroups := wellFormed_groupOutside law lawValue hrel hattrs
  have hkey := TrieMap.lawful_of_mem hgroups.trie he
  have hgroup := hgroups.values e he
  rw [expansion_of_some (nested?_packed law holding hattr hkey hgroup)] at hx
  obtain ⟨a, ha, rfl⟩ := List.mem_map.mp hx
  obtain ⟨t, ht, houter, hinner⟩ := exists_of_mem_group law lawValue hrel hattrs he ha
  have hlacks := not_contains_key law lawValue hrel hattrs hattr hfree he
  exact ⟨t, ht, unpacked_beq law lawValue holding hattr hkey hgroup hlacks hattrs
    (TrieSet.lawful_of_mem hrel ht) (TrieSet.lawful_of_mem (hgroup.wellFormed lawTuple) ha) houter
    hinner⟩

/-- Each tuple is among those that the tuple of a group stands for. -/
theorem exists_mem_expansion_nest {t : Tuple κ ν} (ht : t ∈ rel.toList) :
    ∃ u ∈ (rel.nest attr attrs).toList, ∃ x ∈ expansion attr u, (x == t) = true := by
  have lawTuple := TrieMap.lawfulOn_reachableWith law lawValue
  have hgroups := wellFormed_groupOutside law lawValue hrel hattrs
  have hokt := TrieSet.lawful_of_mem hrel ht
  have hout := reachableWith_outside law hattrs hokt
  have hpart := hokt.project law hattrs
  obtain ⟨e, he, houter, a, ha, hinner⟩ := exists_group law lawValue hrel hattrs ht
  obtain ⟨e', he', hu, hkeys, hsame⟩ :=
    exists_mem_nest law lawValue holding hrel hattr hattrs hfree he
  have hkey := TrieMap.lawful_of_mem hgroups.trie he
  have hkey' := TrieMap.lawful_of_mem hgroups.trie he'
  have hgroup' := hgroups.values e' he'
  rw [← hsame] at ha
  have hoka := TrieSet.lawful_of_mem (hgroup'.wellFormed lawTuple) ha
  have hlacks' := not_contains_key law lawValue hrel hattrs hattr hfree he'
  have houter' := lawTuple.trans hkey' hkey hout hkeys (lawTuple.symm hout hkey houter)
  exact ⟨_, hu, _, update_mem_expansion (nested?_packed law holding hattr hkey' hgroup') ha,
    unpacked_beq law lawValue holding hattr hkey' hgroup' hlacks' hattrs hokt hoka houter'
      (lawTuple.symm hpart hoka hinner)⟩

end Nested

end Relation

/-- **Unnesting undoes nesting.**  Whatever attributes of a relation are folded away, none and
    all of them included, unnesting the new attribute gives the relation back, as long as no
    tuple has that attribute among those that stay.  The tuples need not have one header, the new
    attribute may be one of those that were folded away, and relations inside the tuples stay as
    they are. -/
theorem unnest_nest {κ ν : Type} [BEq κ] [Hashed κ] [BEq ν] [Hashed ν] [HoldsRelation κ ν]
    {ok : κ → Prop} {okValue : ν → Prop} (law : LawfulOn ok) (lawValue : LawfulOn okValue)
    (holding : LawfulHolding ok okValue) {rel : Relation κ ν}
    (hrel : rel.Reachable (ReachableWith ok okValue)) {attr : κ} (hattr : ok attr)
    {attrs : TrieSet κ} (hattrs : attrs.Reachable ok)
    (hfree : ∀ t ∈ rel.toList, TrieMap.contains t attr = true → attrs.contains attr = true) :
    ((rel.nest attr attrs).unnest (.unit attr) == rel) = true := by
  have lawTuple := TrieMap.lawfulOn_reachableWith law lawValue
  have hwr := hrel.wellFormed lawTuple
  have hwa := hattrs.wellFormed law
  have hnest := (Relation.reachable_nest law lawValue holding hwr hattr hwa).wellFormed lawTuple
  have hback := Relation.reachable_unnestOne law holding hattr hnest
  rw [Relation.unnest_unit, TrieSet.beq_iff_contains lawTuple (hback.wellFormed lawTuple) hwr]
  intro r hr
  rw [Bool.eq_iff_iff, Relation.contains_unnestOne law lawValue holding hattr hnest hr,
    TrieSet.contains_iff_mem lawTuple hwr hr]
  constructor
  · rintro ⟨u, hu, x, hx, heq⟩
    have hokx := Relation.reachableWith_of_mem_expansion law holding hattr
      (TrieSet.lawful_of_mem hnest hu) x hx
    obtain ⟨e, he, rfl⟩ := Relation.exists_of_mem_nest law lawValue holding hwr hattr hwa hu
    obtain ⟨t, ht, hxt⟩ :=
      Relation.exists_of_mem_expansion_packed law lawValue holding hwr hattr hwa hfree he hx
    exact ⟨t, ht, lawTuple.trans hr hokx (TrieSet.lawful_of_mem hwr ht) heq hxt⟩
  · rintro ⟨t, ht, heq⟩
    obtain ⟨u, hu, x, hx, hxt⟩ :=
      Relation.exists_mem_expansion_nest law lawValue holding hwr hattr hwa hfree ht
    have hokt := TrieSet.lawful_of_mem hwr ht
    have hokx := Relation.reachableWith_of_mem_expansion law holding hattr
      (TrieSet.lawful_of_mem hnest hu) x hx
    exact ⟨u, hu, x, hx, lawTuple.trans hr hokt hokx heq (lawTuple.symm hokx hokt hxt)⟩

/-- The new attribute is one of those folded away, tuples have different ones of these, and one
    tuple holds a relation under it already. -/
theorem unnest_nest_reused :
    let held : Value := .relation (.unit (.unit "y" (.int 7)))
    let t : Tuple String Value := (TrieMap.unit "a" (.int 1)).insert "x" held
    let u : Tuple String Value := (TrieMap.unit "a" (.int 1)).insert "y" (.int 2)
    let rel : Relation String Value := (TrieSet.unit t).insert u
    let attrs : TrieSet String := (TrieSet.unit "x").insert "y"
    rel.Reachable Value.BuiltTuple ∧ attrs.contains "x" = true ∧
      ((rel.nest "x" attrs).unnest (.unit "x") == rel) = true := by
  intro held t u rel attrs
  have law : LawfulOn fun _ : String => True := lawfulOn_true
  have hheld : held.Built := Value.built_relation (.unit (Value.builtTuple_unit "y" (.int 7)))
  have hone := Value.builtTuple_unit "a" (.int 1)
  have ht : Value.BuiltTuple t := hone.insert law trivial hheld
  have hu : Value.BuiltTuple u := hone.insert law trivial (.int 2)
  have hrel : rel.Reachable Value.BuiltTuple := .insert (.unit ht) hu
  have hattrs : attrs.Reachable fun _ => True := .insert (.unit trivial) trivial
  have hin : attrs.contains "x" = true := by
    have hempty : (TrieSet.empty : TrieSet String).trie.WellFormed fun _ => True :=
      TrieSet.wellFormed_empty
    show ((TrieSet.empty.insert "x").insert "y").contains "x" = true
    rw [TrieSet.contains_insert law (TrieSet.wellFormed_insert law hempty trivial) trivial trivial,
      TrieSet.contains_insert law hempty trivial trivial]
    rfl
  exact ⟨hrel, hin, unnest_nest law Value.lawfulOn_built Value.lawfulHolding_built hrel trivial
    hattrs fun _ _ _ => hin⟩

end TrieCollections
