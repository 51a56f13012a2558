/-
  TrieCollections/Proofs/NaturalJoin.lean
  =======================================
  **The grouped join is the natural join.**  By definition the natural join of two relations
  holds `a.update b` for all tuples `a` of the one and `b` of the other that agree on the
  attributes both have.  The program compares no tuples.  It divides each tuple into a key on
  the common attributes and a rest, groups the rests by the keys, and puts together what it
  finds under one key on both sides.

    * The headers are read from one tuple of each side; in relations with uniform headers they
      are those of all tuples, so they divide any pair of tuples (`splits_of_mem`).
    * The groups on either side hold the rests of the tuples with an equal key
      (`contains_group`).  So a key with a rest on both sides comes from a pair of tuples with
      equal common parts, that is, from one that matches, and every such pair is found.
    * Key and rests together make up the update again (`TrieMap.rejoin`), and since the rests
      share no attribute it does not matter which side is walked and which is searched
      (`contains_mergeGroups_swap`).
-/
import Mathlib.Data.List.Nodup
import TrieCollections.ClusterKey
import TrieCollections.Proofs.Gathering
import TrieCollections.Proofs.SetContents
import TrieCollections.Proofs.TupleParts
import TrieCollections.Proofs.Walks
import TrieCollections.Relation.Join

namespace TrieCollections

namespace Relation

open TrieMap (Matches Divides Grouped ReachableWith)

variable {κ ν : Type} [BEq κ] [Hashed κ] [BEq ν] [Hashed ν] {ok : κ → Prop} {okValue : ν → Prop}

/-- All tuples have the same attributes. -/
def Uniform (s : Relation κ ν) : Prop :=
  ∀ a ∈ s.toList, ∀ b ∈ s.toList, (TrieMap.keySet a == TrieMap.keySet b) = true

/-- All tuples put together from a common part and one part of either side, in the order in
    which they are put in. -/
def combinations (probe build : TrieMap (Tuple κ ν) (Relation κ ν)) : List (Tuple κ ν) :=
  probe.toList.flatMap fun e => e.2.toList.flatMap fun a =>
    (build.getD e.1 .empty).toList.map fun b => (TrieMap.update e.1 a).update b

theorem mergeGroups_eq (probe build : TrieMap (Tuple κ ν) (Relation κ ν)) :
    mergeGroups probe build = .ofList (combinations probe build) := by
  rw [mergeGroups, TrieMap.fold, TrieSet.ofList, TrieSet.insertMany, combinations,
    List.foldl_flatMap]
  congr 1
  funext out e
  rw [TrieMap.getD, List.foldl_flatMap]
  rcases build.get? e.1 with _ | theirs
  · have hnone : ∀ (xs : List (Tuple κ ν)) (out : Relation κ ν),
        xs.foldl (fun out _ => out) out = out := fun xs out => by simp
    exact (hnone _ _).symm
  · simp only [Option.getD_some, List.foldl_map]
    rfl

/-- The updates of all pairs of tuples that agree where both have a value. -/
def updates (s t : Relation κ ν) : List (Tuple κ ν) :=
  s.toList.flatMap fun a => (t.toList.filter a.agrees).map a.update

/-- The join by definition. -/
def nestedLoops (s t : Relation κ ν) : Relation κ ν := .ofList (updates s t)

/-- Sets of tuples under tuples, all of which came about by operations. -/
abbrev TupleGroups (ok : κ → Prop) (okValue : ν → Prop)
    (groups : TrieMap (Tuple κ ν) (Relation κ ν)) : Prop :=
  groups.Grouped (ReachableWith ok okValue) (ReachableWith ok okValue)

/-- Under the key `p` the one side has the part `a` and the other side the part `b`. -/
structure Meets (ok : κ → Prop) (okValue : ν → Prop)
    (probe build : TrieMap (Tuple κ ν) (Relation κ ν)) (p a b : Tuple κ ν) : Prop where
  key : ReachableWith ok okValue p
  left : ReachableWith ok okValue a
  right : ReachableWith ok okValue b
  contains_left : (probe.getD p .empty).contains a = true
  contains_right : (build.getD p .empty).contains b = true

theorem Meets.symm {probe build : TrieMap (Tuple κ ν) (Relation κ ν)} {p a b : Tuple κ ν}
    (h : Meets ok okValue probe build p a b) : Meets ok okValue build probe p b a :=
  ⟨h.key, h.right, h.left, h.contains_right, h.contains_left⟩

variable (law : LawfulOn ok) (lawValue : LawfulOn okValue) {s t : Relation κ ν}
  {probe build : TrieMap (Tuple κ ν) (Relation κ ν)}

include law lawValue

/-! ### Putting groups together -/

theorem update_update_congr {p p' a a' b b' : Tuple κ ν} (hp : ReachableWith ok okValue p)
    (hp' : ReachableWith ok okValue p') (ha : ReachableWith ok okValue a)
    (ha' : ReachableWith ok okValue a') (hb : ReachableWith ok okValue b)
    (hb' : ReachableWith ok okValue b') (hpp' : (p == p') = true) (haa' : (a == a') = true)
    (hbb' : (b == b') = true) : ((p.update a).update b == (p'.update a').update b') = true := by
  have hfirst : (p.update a == p'.update a') = true :=
    TrieMap.update_congr law lawValue (hp.wellFormed law) (hp'.wellFormed law) hpp'
      (ha.wellFormed law) (ha'.wellFormed law) haa'
  exact TrieMap.update_congr law lawValue ((hp.update law ha).wellFormed law)
    ((hp'.update law ha').wellFormed law) hfirst (hb.wellFormed law) (hb'.wellFormed law) hbb'

section Groups

variable (hprobe : TupleGroups ok okValue probe) (hbuild : TupleGroups ok okValue build)
  {r : Tuple κ ν}

include hprobe hbuild

theorem reachableWith_of_mem_combinations (hr : r ∈ combinations probe build) :
    ReachableWith ok okValue r := by
  have lawTuple := TrieMap.lawfulOn_reachableWith law lawValue
  obtain ⟨e, he, hr⟩ := List.mem_flatMap.mp hr
  obtain ⟨a, ha, hr⟩ := List.mem_flatMap.mp hr
  obtain ⟨b, hb, rfl⟩ := List.mem_map.mp hr
  have hkey := TrieMap.lawful_of_mem hprobe.trie he
  have hparta := TrieSet.lawful_of_mem (hprobe.values e he) ha
  have hpartb := TrieSet.lawful_of_mem (hbuild.group lawTuple hkey) hb
  exact (hkey.update law hparta).update law hpartb

theorem reachable_mergeGroups : (mergeGroups probe build).Reachable (ReachableWith ok okValue) := by
  rw [mergeGroups_eq]
  apply TrieSet.Reachable.ofList
  intro r hr
  exact reachableWith_of_mem_combinations law lawValue hprobe hbuild hr

/-- **The merge holds what is put together from parts that meet under a key.** -/
theorem contains_mergeGroups (hr : ReachableWith ok okValue r) :
    (mergeGroups probe build).contains r = true ↔
      ∃ p a b, Meets ok okValue probe build p a b ∧ (r == (p.update a).update b) = true := by
  have lawTuple := TrieMap.lawfulOn_reachableWith law lawValue
  have hcombinations : ∀ c ∈ combinations probe build, ReachableWith ok okValue c :=
    fun c hc => reachableWith_of_mem_combinations law lawValue hprobe hbuild hc
  rw [mergeGroups_eq, TrieSet.contains_ofList lawTuple hcombinations hr, List.any_eq_true]
  constructor
  · rintro ⟨c, hc, heq⟩
    obtain ⟨e, he, hc⟩ := List.mem_flatMap.mp hc
    obtain ⟨a, ha, hc⟩ := List.mem_flatMap.mp hc
    obtain ⟨b, hb, rfl⟩ := List.mem_map.mp hc
    have hkey := TrieMap.lawful_of_mem hprobe.trie he
    have hours := hprobe.values e he
    have htheirs := hbuild.group lawTuple hkey
    refine ⟨e.1, a, b, ⟨hkey, TrieSet.lawful_of_mem hours ha, TrieSet.lawful_of_mem htheirs hb,
      ?_, TrieSet.contains_of_mem lawTuple htheirs hb⟩, heq⟩
    rw [TrieMap.getD_of_mem lawTuple hprobe.trie he]
    exact TrieSet.contains_of_mem lawTuple hours ha
  · rintro ⟨p, a, b, h, heq⟩
    -- the key and the parts that are stored are equal to the given ones only
    obtain ⟨hp, ha, hb, hours, htheirs⟩ := h
    rcases hget : probe.get? p with _ | ours
    · rw [TrieMap.getD, hget] at hours
      cases hours
    · obtain ⟨e, he, hpe, rfl⟩ := (TrieMap.get?_eq_some_iff_mem lawTuple hprobe.trie hp).mp hget
      have hkey := TrieMap.lawful_of_mem hprobe.trie he
      have hwf := hprobe.values e he
      have hwf' := hbuild.group lawTuple hkey
      rw [TrieMap.getD, hget] at hours
      rw [TrieMap.getD_congr lawTuple hbuild.trie hp hkey hpe] at htheirs
      obtain ⟨a', ha', haa'⟩ := (TrieSet.contains_iff_mem lawTuple hwf ha).mp hours
      obtain ⟨b', hb', hbb'⟩ := (TrieSet.contains_iff_mem lawTuple hwf' hb).mp htheirs
      have hoka' := TrieSet.lawful_of_mem hwf ha'
      have hokb' := TrieSet.lawful_of_mem hwf' hb'
      have hpab := (hp.update law ha).update law hb
      have hpab' := (hkey.update law hoka').update law hokb'
      have hequal :=
        update_update_congr law lawValue hp hkey ha hoka' hb hokb' hpe haa' hbb'
      refine ⟨(TrieMap.update e.1 a').update b', ?_, lawTuple.trans hr hpab hpab' heq hequal⟩
      exact List.mem_flatMap.mpr ⟨e, he, List.mem_flatMap.mpr ⟨a', ha', List.mem_map_of_mem hb'⟩⟩

/-- It does not matter which side is walked, as long as parts that meet share no attribute. -/
theorem contains_mergeGroups_swap
    (hdisjoint : ∀ p a b, Meets ok okValue probe build p a b →
      ∀ k, ok k → (a.contains k && b.contains k) = false)
    (hr : ReachableWith ok okValue r) :
    (mergeGroups build probe).contains r = true ↔ (mergeGroups probe build).contains r = true := by
  have lawTuple := TrieMap.lawfulOn_reachableWith law lawValue
  rw [contains_mergeGroups law lawValue hbuild hprobe hr,
    contains_mergeGroups law lawValue hprobe hbuild hr]
  have hcomm : ∀ p a b, Meets ok okValue probe build p a b →
      (r == (p.update a).update b) = (r == (p.update b).update a) := by
    intro p a b h
    have hpab := (h.key.update law h.left).update law h.right
    have hpba := (h.key.update law h.right).update law h.left
    rw [lawTuple.beq_comm hr hpab, lawTuple.beq_comm hr hpba]
    exact lawTuple.beq_congr hpab hpba hr (TrieMap.update_comm law lawValue
      (h.key.wellFormed law) (h.left.wellFormed law) (h.right.wellFormed law) (hdisjoint p a b h))
  constructor
  · rintro ⟨p, b, a, h, heq⟩
    rw [← hcomm p a b h.symm] at heq
    exact ⟨p, a, b, h.symm, heq⟩
  · rintro ⟨p, a, b, h, heq⟩
    rw [hcomm p a b h] at heq
    exact ⟨p, b, a, h.symm, heq⟩

end Groups

/-! ### Taking tuples apart -/

omit lawValue in
/-- In a relation with one header, that of any tuple is the one of all. -/
theorem contains_header (hs : s.trie.WellFormed (ReachableWith ok okValue)) (huniform : s.Uniform)
    {x₀ x : Tuple κ ν} (hx₀ : x₀ ∈ s.toList) (hx : x ∈ s.toList) {k : κ} (hk : ok k) :
    (TrieMap.keySet x₀).contains k = x.contains k := by
  have hwf := ((TrieSet.lawful_of_mem hs hx).wellFormed law).trie
  have hwf₀ := ((TrieSet.lawful_of_mem hs hx₀).wellFormed law).trie
  rw [TrieMap.contains_keySet law hwf₀ hk,
    (TrieMap.keySet_beq_iff law hwf₀ hwf).mp (huniform x₀ hx₀ x hx) k hk]

omit lawValue in
theorem reachableWith_project (hs : s.trie.WellFormed (ReachableWith ok okValue))
    {attrs : TrieSet κ} (hattrs : attrs.trie.WellFormed ok) :
    ∀ x ∈ s.toList, ReachableWith ok okValue (TrieMap.project x attrs) :=
  fun _ hx => (TrieSet.lawful_of_mem hs hx).project law hattrs

section Parts

variable (hs : s.trie.WellFormed (ReachableWith ok okValue)) {keyAttrs restAttrs : TrieSet κ}
  (hkey : keyAttrs.trie.WellFormed ok) (hrest : restAttrs.trie.WellFormed ok)

include hs hkey hrest

theorem tupleGroups_group : TupleGroups ok okValue (s.group keyAttrs restAttrs) := by
  have lawTuple := TrieMap.lawfulOn_reachableWith law lawValue
  have hkeys := reachableWith_project law hs hkey
  have hrests := reachableWith_project law hs hrest
  exact TrieMap.grouped_gather lawTuple lawTuple hkeys hrests

/-- **The group under a key holds the rests of the tuples that have this key.** -/
theorem contains_group {p a : Tuple κ ν} (hp : ReachableWith ok okValue p)
    (ha : ReachableWith ok okValue a) :
    ((s.group keyAttrs restAttrs).getD p .empty).contains a = true ↔
      ∃ x ∈ s.toList, (p == TrieMap.project x keyAttrs) = true ∧
        (a == TrieMap.project x restAttrs) = true := by
  have lawTuple := TrieMap.lawfulOn_reachableWith law lawValue
  have hkeys := reachableWith_project law hs hkey
  have hrests := reachableWith_project law hs hrest
  exact TrieMap.contains_gather lawTuple lawTuple hkeys hrests hp ha

end Parts

/-! ### Meeting under a key -/

/-- Three sets of attributes divide every tuple of `s` and every tuple of `t` alike. -/
structure Splits (ok : κ → Prop) (s t : Relation κ ν) (common left right : TrieSet κ) : Prop where
  common_wellFormed : common.trie.WellFormed ok
  left_wellFormed : left.trie.WellFormed ok
  right_wellFormed : right.trie.WellFormed ok
  divides : ∀ x ∈ s.toList, ∀ y ∈ t.toList, Divides ok x y common left right

section Splits

variable (hs : s.trie.WellFormed (ReachableWith ok okValue))
  (ht : t.trie.WellFormed (ReachableWith ok okValue)) {common left right : TrieSet κ}
  (hsplits : Splits ok s t common left right)

include hs ht hsplits

/-- **Parts that meet come from two tuples that match**; put together they are the update, and
    the rests share no attribute. -/
theorem of_meets {p a b : Tuple κ ν}
    (h : Meets ok okValue (s.group common left) (t.group common right) p a b) :
    (∃ x ∈ s.toList, ∃ y ∈ t.toList, Matches ok x y ∧
      ((p.update a).update b == TrieMap.update x y) = true) ∧
    ∀ k, ok k → (a.contains k && b.contains k) = false := by
  have lawTuple := TrieMap.lawfulOn_reachableWith law lawValue
  obtain ⟨hcommon, hleft, hright, hdivides⟩ := hsplits
  obtain ⟨hp, ha, hb, hours, htheirs⟩ := h
  obtain ⟨x, hx, hpx, hax⟩ := (contains_group law lawValue hs hcommon hleft hp ha).mp hours
  obtain ⟨y, hy, hpy, hby⟩ := (contains_group law lawValue ht hcommon hright hp hb).mp htheirs
  have hokx := TrieSet.lawful_of_mem hs hx
  have hoky := TrieSet.lawful_of_mem ht hy
  have hxc := reachableWith_project law hs hcommon x hx
  have hxl := reachableWith_project law hs hleft x hx
  have hyc := reachableWith_project law ht hcommon y hy
  have hyr := reachableWith_project law ht hright y hy
  have hdiv := hdivides x hx y hy
  constructor
  · have hmatch : Matches ok x y := by
      rw [TrieMap.matches_iff_project law lawValue (hokx.wellFormed law) (hoky.wellFormed law) hdiv]
      exact lawTuple.trans hxc hp hyc (lawTuple.symm hp hxc hpx) hpy
    have hequal := update_update_congr law lawValue hp hxc ha hxl hb hyr hpx hax hby
    have hparts := TrieMap.rejoin law lawValue (hokx.wellFormed law) (hoky.wellFormed law) hdiv
      hmatch
    have hpab := (hp.update law ha).update law hb
    have hxyz := (hxc.update law hxl).update law hyr
    exact ⟨x, hx, y, hy, hmatch,
      lawTuple.trans hpab hxyz (hokx.update law hoky) hequal hparts⟩
  · intro k hk
    rw [TrieMap.contains_eq_of_beq law lawValue (ha.wellFormed law) (hxl.wellFormed law) hax hk,
      TrieMap.contains_eq_of_beq law lawValue (hb.wellFormed law) (hyr.wellFormed law) hby hk,
      TrieMap.contains_project law (hokx.wellFormed law).trie hleft hk,
      TrieMap.contains_project law (hoky.wellFormed law).trie hright hk,
      hdiv.contains_left k hk, hdiv.contains_right k hk]
    cases x.contains k <;> simp

/-- The parts of two tuples that match meet under the common part of the first one. -/
theorem meets_of_matches {x y : Tuple κ ν} (hx : x ∈ s.toList) (hy : y ∈ t.toList)
    (hmatch : Matches ok x y) :
    Meets ok okValue (s.group common left) (t.group common right) (TrieMap.project x common)
      (TrieMap.project x left) (TrieMap.project y right) := by
  have lawTuple := TrieMap.lawfulOn_reachableWith law lawValue
  obtain ⟨hcommon, hleft, hright, hdivides⟩ := hsplits
  have hokx := TrieSet.lawful_of_mem hs hx
  have hoky := TrieSet.lawful_of_mem ht hy
  have hxc := reachableWith_project law hs hcommon x hx
  have hxl := reachableWith_project law hs hleft x hx
  have hyr := reachableWith_project law ht hright y hy
  refine ⟨hxc, hxl, hyr, ?_, ?_⟩
  · rw [contains_group law lawValue hs hcommon hleft hxc hxl]
    exact ⟨x, hx, lawTuple.refl hxc, lawTuple.refl hxl⟩
  · rw [contains_group law lawValue ht hcommon hright hxc hyr]
    rw [TrieMap.matches_iff_project law lawValue (hokx.wellFormed law) (hoky.wellFormed law)
      (hdivides x hx y hy)] at hmatch
    exact ⟨y, hy, hmatch, lawTuple.refl hyr⟩

theorem contains_mergeGroups_group {r : Tuple κ ν} (hr : ReachableWith ok okValue r) :
    (mergeGroups (s.group common left) (t.group common right)).contains r = true ↔
      ∃ x ∈ s.toList, ∃ y ∈ t.toList, Matches ok x y ∧ (r == TrieMap.update x y) = true := by
  have lawTuple := TrieMap.lawfulOn_reachableWith law lawValue
  have hours := tupleGroups_group law lawValue hs hsplits.common_wellFormed hsplits.left_wellFormed
  have htheirs :=
    tupleGroups_group law lawValue ht hsplits.common_wellFormed hsplits.right_wellFormed
  rw [contains_mergeGroups law lawValue hours htheirs hr]
  constructor
  · rintro ⟨p, a, b, hmeets, heq⟩
    obtain ⟨⟨x, hx, y, hy, hmatch, hparts⟩, -⟩ := of_meets law lawValue hs ht hsplits hmeets
    have hpab := (hmeets.key.update law hmeets.left).update law hmeets.right
    have hxy := (TrieSet.lawful_of_mem hs hx).update law (TrieSet.lawful_of_mem ht hy)
    exact ⟨x, hx, y, hy, hmatch, lawTuple.trans hr hpab hxy heq hparts⟩
  · rintro ⟨x, hx, y, hy, hmatch, heq⟩
    have hmeets := meets_of_matches law lawValue hs ht hsplits hx hy hmatch
    have hokx := TrieSet.lawful_of_mem hs hx
    have hoky := TrieSet.lawful_of_mem ht hy
    have hpab := (hmeets.key.update law hmeets.left).update law hmeets.right
    have hparts := TrieMap.rejoin law lawValue (hokx.wellFormed law) (hoky.wellFormed law)
      (hsplits.divides x hx y hy) hmatch
    have hxy := hokx.update law hoky
    exact ⟨_, _, _, hmeets, lawTuple.trans hr hxy hpab heq (lawTuple.symm hpab hxy hparts)⟩

end Splits

/-! ### The join -/

variable (hs : s.trie.WellFormed (ReachableWith ok okValue))
  (ht : t.trie.WellFormed (ReachableWith ok okValue))

include hs ht

omit lawValue in
/-- The headers of one tuple of either side divide the tuples of both sides. -/
theorem splits_of_mem (hsUniform : s.Uniform) (htUniform : t.Uniform) {x₀ y₀ : Tuple κ ν}
    (hx₀ : x₀ ∈ s.toList) (hy₀ : y₀ ∈ t.toList) :
    let sHeader := TrieMap.keySet x₀
    let tHeader := TrieMap.keySet y₀
    let common := sHeader.intersection tHeader
    Splits ok s t common (sHeader.difference common) (tHeader.difference common) := by
  have hxs := TrieMap.keySet_wellFormed law ((TrieSet.lawful_of_mem hs hx₀).wellFormed law).trie
  have hys := TrieMap.keySet_wellFormed law ((TrieSet.lawful_of_mem ht hy₀).wellFormed law).trie
  have hdivides : ∀ x ∈ s.toList, ∀ y ∈ t.toList, Divides ok x y _ _ _ := fun x hx y hy =>
    TrieMap.divides_of_headers law hxs hys
      (fun k hk => contains_header law hs hsUniform hx₀ hx hk)
      (fun k hk => contains_header law ht htUniform hy₀ hy hk)
  obtain ⟨hcommon, hleft, hright, -⟩ := hdivides x₀ hx₀ y₀ hy₀
  exact ⟨hcommon, hleft, hright, hdivides⟩

theorem reachable_join : (s.join t).Reachable (ReachableWith ok okValue) := by
  rw [join]
  rcases hx₀ : s.any? with _ | x₀
  · exact .empty
  rcases hy₀ : t.any? with _ | y₀
  · exact .empty
  have hokx := TrieSet.lawful_of_mem hs (TrieSet.mem_of_any? hx₀)
  have hoky := TrieSet.lawful_of_mem ht (TrieSet.mem_of_any? hy₀)
  have hxs := TrieMap.keySet_wellFormed law (hokx.wellFormed law).trie
  have hys := TrieMap.keySet_wellFormed law (hoky.wellFormed law).trie
  have hcommon := TrieSet.wellFormed_intersection law hxs hys
  have hours := tupleGroups_group law lawValue hs hcommon
    (TrieSet.wellFormed_difference law hxs hcommon)
  have htheirs := tupleGroups_group law lawValue ht hcommon
    (TrieSet.wellFormed_difference law hys hcommon)
  dsimp only
  split
  · exact reachable_mergeGroups law lawValue hours htheirs
  · exact reachable_mergeGroups law lawValue htheirs hours

omit lawValue in
theorem reachableWith_of_mem_updates : ∀ r ∈ updates s t, ReachableWith ok okValue r := by
  intro r hr
  obtain ⟨x, hx, hr⟩ := List.mem_flatMap.mp hr
  obtain ⟨y, hy, rfl⟩ := List.mem_map.mp hr
  have hoky := TrieSet.lawful_of_mem ht (List.mem_of_mem_filter hy)
  exact (TrieSet.lawful_of_mem hs hx).update law hoky

theorem contains_nestedLoops {r : Tuple κ ν} (hr : ReachableWith ok okValue r) :
    (nestedLoops s t).contains r = true ↔
      ∃ x ∈ s.toList, ∃ y ∈ t.toList, Matches ok x y ∧ (r == TrieMap.update x y) = true := by
  have lawTuple := TrieMap.lawfulOn_reachableWith law lawValue
  have hagrees : ∀ x ∈ s.toList, ∀ y ∈ t.toList, (x.agrees y = true ↔ Matches ok x y) := by
    intro x hx y hy
    exact TrieMap.agrees_iff_matches law ((TrieSet.lawful_of_mem hs hx).wellFormed law).trie
      ((TrieSet.lawful_of_mem ht hy).wellFormed law).trie
  rw [nestedLoops, TrieSet.contains_ofList lawTuple (reachableWith_of_mem_updates law hs ht) hr,
    List.any_eq_true]
  simp only [updates, List.mem_flatMap, List.mem_map, List.mem_filter]
  constructor
  · rintro ⟨c, ⟨x, hx, y, ⟨hy, hxy⟩, rfl⟩, heq⟩
    exact ⟨x, hx, y, hy, (hagrees x hx y hy).mp hxy, heq⟩
  · rintro ⟨x, hx, y, hy, hmatch, heq⟩
    exact ⟨_, ⟨x, hx, y, ⟨hy, (hagrees x hx y hy).mpr hmatch⟩, rfl⟩, heq⟩

variable (hsUniform : s.Uniform) (htUniform : t.Uniform)

include hsUniform htUniform

/-- **The grouped join holds the updates of the tuples that match.** -/
theorem contains_join {r : Tuple κ ν} (hr : ReachableWith ok okValue r) :
    (s.join t).contains r = true ↔
      ∃ x ∈ s.toList, ∃ y ∈ t.toList, Matches ok x y ∧ (r == TrieMap.update x y) = true := by
  rw [join]
  rcases hx₀ : s.any? with _ | x₀
  · simp [TrieSet.toList_eq_nil_of_any? hx₀]
  rcases hy₀ : t.any? with _ | y₀
  · simp [TrieSet.toList_eq_nil_of_any? hy₀]
  have hsplits := splits_of_mem law hs ht hsUniform htUniform (TrieSet.mem_of_any? hx₀)
    (TrieSet.mem_of_any? hy₀)
  have hours := tupleGroups_group law lawValue hs hsplits.common_wellFormed hsplits.left_wellFormed
  have htheirs :=
    tupleGroups_group law lawValue ht hsplits.common_wellFormed hsplits.right_wellFormed
  dsimp only
  split
  · exact contains_mergeGroups_group law lawValue hs ht hsplits hr
  · rw [contains_mergeGroups_swap law lawValue hours htheirs _ hr]
    · exact contains_mergeGroups_group law lawValue hs ht hsplits hr
    · intro p a b hmeets
      exact (of_meets law lawValue hs ht hsplits hmeets).2

/-- **The grouped join is the join by nested loops.** -/
theorem join_beq_nestedLoops : (s.join t == nestedLoops s t) = true := by
  have lawTuple := TrieMap.lawfulOn_reachableWith law lawValue
  have hjoin := (reachable_join law lawValue hs ht).wellFormed lawTuple
  have hloops : (nestedLoops s t).trie.WellFormed (ReachableWith ok okValue) :=
    TrieSet.wellFormed_insertMany lawTuple TrieSet.wellFormed_empty
      (reachableWith_of_mem_updates law hs ht)
  rw [TrieSet.beq_iff_contains lawTuple hjoin hloops]
  intro r hr
  rw [Bool.eq_iff_iff, contains_join law lawValue hs ht hsUniform htUniform hr,
    contains_nestedLoops law lawValue hs ht hr]

/-- With one header on both sides, only equal tuples match, and each is its own update. -/
theorem join_beq_intersection
    (hheaders : ∀ x ∈ s.toList, ∀ y ∈ t.toList, (TrieMap.keySet x == TrieMap.keySet y) = true) :
    (s.join t == s.intersection t) = true := by
  have lawTuple := TrieMap.lawfulOn_reachableWith law lawValue
  have hjoin := (reachable_join law lawValue hs ht).wellFormed lawTuple
  rw [TrieSet.beq_iff_contains lawTuple hjoin (TrieSet.wellFormed_intersection lawTuple hs ht)]
  intro r hr
  have hkeys : ∀ x ∈ s.toList, ∀ y ∈ t.toList, ∀ k, ok k → x.contains k = y.contains k := by
    intro x hx y hy k hk
    have hwfx := ((TrieSet.lawful_of_mem hs hx).wellFormed law).trie
    have hwfy := ((TrieSet.lawful_of_mem ht hy).wellFormed law).trie
    exact (TrieMap.keySet_beq_iff law hwfx hwfy).mp (hheaders x hx y hy) k hk
  rw [Bool.eq_iff_iff, contains_join law lawValue hs ht hsUniform htUniform hr,
    TrieSet.contains_intersection lawTuple hs ht hr, Bool.and_eq_true,
    TrieSet.contains_iff_mem lawTuple hs hr, TrieSet.contains_iff_mem lawTuple ht hr]
  constructor
  · rintro ⟨x, hx, y, hy, hmatch, heq⟩
    have hokx := TrieSet.lawful_of_mem hs hx
    have hoky := TrieSet.lawful_of_mem ht hy
    have hupdate := TrieMap.update_of_contains law lawValue (hokx.wellFormed law)
      (hoky.wellFormed law) (hkeys x hx y hy)
    rw [TrieMap.matches_iff_beq law lawValue (hokx.wellFormed law) (hoky.wellFormed law)
      (hkeys x hx y hy)] at hmatch
    have hry := lawTuple.trans hr (hokx.update law hoky) hoky heq hupdate
    exact ⟨⟨x, hx, lawTuple.trans hr hoky hokx hry (lawTuple.symm hokx hoky hmatch)⟩, ⟨y, hy, hry⟩⟩
  · rintro ⟨⟨x, hx, hrx⟩, ⟨y, hy, hry⟩⟩
    have hokx := TrieSet.lawful_of_mem hs hx
    have hoky := TrieSet.lawful_of_mem ht hy
    have hupdate := TrieMap.update_of_contains law lawValue (hokx.wellFormed law)
      (hoky.wellFormed law) (hkeys x hx y hy)
    refine ⟨x, hx, y, hy, ?_, ?_⟩
    · rw [TrieMap.matches_iff_beq law lawValue (hokx.wellFormed law) (hoky.wellFormed law)
        (hkeys x hx y hy)]
      exact lawTuple.trans hokx hr hoky (lawTuple.symm hr hokx hrx) hry
    · have hxy := hokx.update law hoky
      exact lawTuple.trans hr hoky hxy hry (lawTuple.symm hxy hoky hupdate)

end Relation

/-- **The grouped join is the natural join.**  For relations that came about by operations, each
    with one header, a tuple is in the join exactly when it is the update of a tuple of the one
    relation with a tuple of the other that has equal values under the attributes of both; that
    is, the join is the one by nested loops.  It does not matter what the headers have in common
    or which side has fewer groups: without common attributes every pair counts, with the same
    attributes on both sides the join is the intersection, and with an empty side it is empty. -/
theorem grouped_join_natural {κ ν : Type} [BEq κ] [Hashed κ] [BEq ν] [Hashed ν] {ok : κ → Prop}
    {okValue : ν → Prop} (law : LawfulOn ok) (lawValue : LawfulOn okValue) {s t : Relation κ ν}
    (hs : s.Reachable (TrieMap.ReachableWith ok okValue))
    (ht : t.Reachable (TrieMap.ReachableWith ok okValue)) (hsUniform : s.Uniform)
    (htUniform : t.Uniform) :
    (s.join t).Reachable (TrieMap.ReachableWith ok okValue) ∧
    (∀ r, TrieMap.ReachableWith ok okValue r →
      ((s.join t).contains r = true ↔
        ∃ a ∈ s.toList, ∃ b ∈ t.toList,
          (∀ k, ok k → ∀ v w, a.get? k = some v → b.get? k = some w → (v == w) = true) ∧
          (r == TrieMap.update a b) = true)) ∧
    (s.join t == Relation.nestedLoops s t) = true ∧
    ((∀ a ∈ s.toList, ∀ b ∈ t.toList, ∀ k, ok k → (a.contains k && b.contains k) = false) →
      ∀ r, TrieMap.ReachableWith ok okValue r →
        ((s.join t).contains r = true ↔
          ∃ a ∈ s.toList, ∃ b ∈ t.toList, (r == TrieMap.update a b) = true)) ∧
    ((∀ a ∈ s.toList, ∀ b ∈ t.toList, (TrieMap.keySet a == TrieMap.keySet b) = true) →
      (s.join t == s.intersection t) = true) ∧
    (s.isEmpty = true ∨ t.isEmpty = true → (s.join t).toList = []) := by
  have lawTuple := TrieMap.lawfulOn_reachableWith law lawValue
  have hws := hs.wellFormed lawTuple
  have hwt := ht.wellFormed lawTuple
  have hjoin := fun r => Relation.contains_join law lawValue hws hwt hsUniform htUniform (r := r)
  have hreachable := Relation.reachable_join law lawValue hws hwt
  refine ⟨hreachable, hjoin,
    Relation.join_beq_nestedLoops law lawValue hws hwt hsUniform htUniform, ?_, ?_, ?_⟩
  · intro hdisjoint r hr
    rw [hjoin r hr]
    constructor
    · rintro ⟨a, ha, b, hb, -, heq⟩
      exact ⟨a, ha, b, hb, heq⟩
    · rintro ⟨a, ha, b, hb, heq⟩
      refine ⟨a, ha, b, hb, ?_, heq⟩
      intro k hk v w hv hw
      have hnot := hdisjoint a ha b hb k hk
      simp [TrieMap.contains, hv, hw] at hnot
  · exact Relation.join_beq_intersection law lawValue hws hwt hsUniform htUniform
  · intro hempty
    have hnil : s.toList = [] ∨ t.toList = [] := by
      simpa only [TrieSet.isEmpty, beq_iff_eq, TrieSet.size_eq_length hws,
        TrieSet.size_eq_length hwt, List.length_eq_zero_iff] using hempty
    rw [List.eq_nil_iff_forall_not_mem]
    intro r hr
    have hwj := hreachable.wellFormed lawTuple
    obtain ⟨a, ha, b, hb, -⟩ :=
      (hjoin r (TrieSet.lawful_of_mem hwj hr)).mp (TrieSet.contains_of_mem lawTuple hwj hr)
    rcases hnil with hnil | hnil
    · simp [hnil] at ha
    · simp [hnil] at hb

/-- Two tuples on the one side and three on the other, over attributes that collide.  The sides have
    one attribute in common, written with different tags.  There the first tuple of the one side
    matches two of the other, and what is left on either side matches nothing. -/
theorem grouped_join_natural_colliding :
    let row (number : Int64) (tag : String) (p : Int64 × Int64) : Tuple ClusterKey Int64 :=
      .ofList [(⟨7, number, tag⟩, p.1), (⟨7, 2, tag⟩, p.2)]
    let ours : List (Int64 × Int64) := [(10, 20), (11, 21)]
    let theirs : List (Int64 × Int64) := [(30, 20), (31, 20), (32, 99)]
    let s : Relation ClusterKey Int64 := .ofList (ours.map (row 1 "a"))
    let t : Relation ClusterKey Int64 := .ofList (theirs.map (row 3 "b"))
    LawfulOn (fun _ : ClusterKey => True) ∧ LawfulOn (fun _ : Int64 => True) ∧
    s.Reachable (TrieMap.ReachableWith (fun _ => True) fun _ => True) ∧
    t.Reachable (TrieMap.ReachableWith (fun _ => True) fun _ => True) ∧
    s.Uniform ∧ t.Uniform ∧ s.size = 2 ∧ t.size = 3 ∧
    ∀ p ∈ ours, ∀ q ∈ theirs,
      (s.join t).contains (TrieMap.update (row 1 "a" p) (row 3 "b" q)) = (p.2 == q.2) := by
  intro row ours theirs s t
  have law : LawfulOn fun _ : ClusterKey => True := lawfulOn_true
  have lawValue : LawfulOn fun _ : Int64 => True := lawfulOn_true
  have lawTuple := TrieMap.lawfulOn_reachableWith law lawValue
  have hrow : ∀ n tag p, (row n tag p).ReachableWith (fun _ => True) fun _ => True :=
    fun n tag p => .ofList law fun _ _ => ⟨trivial, trivial⟩
  have hwf : ∀ n tag p, (row n tag p).WellFormed (fun _ => True) fun _ => True :=
    fun n tag p => (hrow n tag p).wellFormed law
  have hget : ∀ n tag p k, (row n tag p).get? k =
      if k == (⟨7, 2, tag⟩ : ClusterKey) then some p.2
      else if k == (⟨7, n, tag⟩ : ClusterKey) then some p.1 else none := by
    intro n tag p k
    rw [TrieMap.get?_ofList law (fun _ _ => trivial) trivial]
    simp only [List.reverse_cons, List.reverse_nil, List.nil_append, List.cons_append, List.find?]
    cases k == (⟨7, 2, tag⟩ : ClusterKey) <;> cases k == (⟨7, n, tag⟩ : ClusterKey) <;> rfl
  -- all rows of a side have the same attributes, and the values under them tell the rows apart
  have huniform : ∀ n tag (ps : List (Int64 × Int64)),
      Relation.Uniform (TrieSet.ofList (ps.map (row n tag))) := by
    intro n tag ps x hx y hy
    have hrows := List.forall_mem_map.mpr fun p (_ : p ∈ ps) => hrow n tag p
    obtain ⟨p, -, rfl⟩ := List.mem_map.mp (TrieSet.mem_of_mem_ofList lawTuple hrows hx)
    obtain ⟨q, -, rfl⟩ := List.mem_map.mp (TrieSet.mem_of_mem_ofList lawTuple hrows hy)
    rw [TrieMap.keySet_beq_iff law (hwf n tag p).trie (hwf n tag q).trie]
    intro k _
    rw [TrieMap.contains_ofList law (fun _ _ => trivial) trivial,
      TrieMap.contains_ofList law (fun _ _ => trivial) trivial]
    rfl
  have hdistinct : ∀ n tag (ps : List (Int64 × Int64)), n ≠ 2 → ps.Nodup →
      Distinct (TrieMap.ReachableWith (fun _ => True) fun _ => True) (ps.map (row n tag)) := by
    intro n tag ps hn hps
    refine ⟨List.forall_mem_map.mpr fun p _ => hrow n tag p, List.pairwise_map.mpr (hps.imp ?_)⟩
    intro p q hne
    rw [Bool.eq_false_iff]
    intro heq
    have hsame : ∀ k, (row n tag p).get? k = (row n tag q).get? k := fun k =>
      TrieMap.get?_eq_of_beq law lawValue (hwf n tag p) (hwf n tag q) heq trivial
    have hfirst : p.1 = q.1 := by simpa [hget, ClusterKey.beq_iff, hn] using hsame ⟨7, n, tag⟩
    have hsecond : p.2 = q.2 := by simpa [hget, ClusterKey.beq_iff] using hsame ⟨7, 2, tag⟩
    exact hne (Prod.ext hfirst hsecond)
  have hsDistinct := hdistinct 1 "a" ours (by decide) (by decide)
  have htDistinct := hdistinct 3 "b" theirs (by decide) (by decide)
  have hs : s.Reachable _ := .ofList hsDistinct.lawful
  have ht : t.Reachable _ := .ofList htDistinct.lawful
  have hsPerm := TrieSet.perm_toList_ofList lawTuple hsDistinct
  have htPerm := TrieSet.perm_toList_ofList lawTuple htDistinct
  have hsUniform : s.Uniform := huniform 1 "a" ours
  have htUniform : t.Uniform := huniform 3 "b" theirs
  refine ⟨law, lawValue, hs, ht, hsUniform, htUniform, ?ours, ?theirs, ?join⟩
  case ours =>
    exact (TrieSet.size_eq_length (hs.wellFormed lawTuple)).trans hsPerm.length_eq
  case theirs =>
    exact (TrieSet.size_eq_length (ht.wellFormed lawTuple)).trans htPerm.length_eq
  case join =>
    intro p hp q hq
    have hupdated : ∀ p q, (TrieMap.update (row 1 "a" p) (row 3 "b" q)).ReachableWith
        (fun _ => True) fun _ => True := fun p q => (hrow 1 "a" p).update law (hrow 3 "b" q)
    have hread : ∀ p q k, (TrieMap.update (row 1 "a" p) (row 3 "b" q)).get? k =
        ((row 3 "b" q).get? k).or ((row 1 "a" p).get? k) := fun p q k =>
      TrieMap.get?_update law (hwf 1 "a" p).trie (hwf 3 "b" q).trie trivial
    obtain ⟨-, hjoin, -⟩ := grouped_join_natural law lawValue hs ht hsUniform htUniform
    rw [Bool.eq_iff_iff, hjoin _ (hupdated p q), beq_iff_eq]
    constructor
    · rintro ⟨a, ha, b, hb, hmatch, heq⟩
      obtain ⟨p', hp', rfl⟩ := List.mem_map.mp (hsPerm.mem_iff.mp ha)
      obtain ⟨q', -, rfl⟩ := List.mem_map.mp (htPerm.mem_iff.mp hb)
      have hsame : ∀ k, (TrieMap.update (row 1 "a" p) (row 3 "b" q)).get? k =
          (TrieMap.update (row 1 "a" p') (row 3 "b" q')).get? k := fun k =>
        TrieMap.get?_eq_of_beq law lawValue ((hupdated p q).wellFormed law)
          ((hupdated p' q').wellFormed law) heq trivial
      have hfirst : p.1 = p'.1 := by
        simpa [hread, hget, ClusterKey.beq_iff] using hsame ⟨7, 1, "a"⟩
      have hsecond : q.2 = q'.2 := by
        simpa [hread, hget, ClusterKey.beq_iff] using hsame ⟨7, 2, "b"⟩
      have hshared : (p'.2 == q'.2) = true :=
        hmatch ⟨7, 2, "b"⟩ trivial _ _ (by simp [hget, ClusterKey.beq_iff]) (by simp [hget])
      have hfirsts : (ours.map Prod.fst).Nodup := by decide
      rw [List.inj_on_of_nodup_map hfirsts hp hp' hfirst, hsecond, eq_of_beq hshared]
    · intro hshared
      refine ⟨_, hsPerm.mem_iff.mpr (List.mem_map_of_mem hp), _,
        htPerm.mem_iff.mpr (List.mem_map_of_mem hq), ?_, lawTuple.refl (hupdated p q)⟩
      intro k _ v w hv hw
      simp only [hget, ClusterKey.beq_iff] at hv hw
      by_cases hk : k.cluster = 7 ∧ k.number = 2
      · rw [if_pos hk] at hv hw
        rw [← Option.some.inj hv, ← Option.some.inj hw, hshared, BEq.rfl]
      · -- under no other attribute do both have a value
        rw [if_neg hk] at hv hw
        split at hv
        · next hours =>
          rw [if_neg fun htheirs => absurd (hours.2.symm.trans htheirs.2) (by decide)] at hw
          cases hw
        · cases hv

end TrieCollections
