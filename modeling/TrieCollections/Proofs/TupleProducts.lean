/-
  TrieCollections/Proofs/TupleProducts.lean
  =========================================
  **What a tuple comes to when several attributes are unnested.**  The attributes are unnested
  one after the other, and each step expands whatever the steps before have left (`expansions`).

  Let what is nested in a tuple keep apart from everything else: from what the tuple has itself,
  from the attributes that are unnested, and from what is nested under the others (`Apart`).  Then
  a tuple comes to a product.  One nested tuple is picked under each attribute that holds a
  relation (`Picks`), and put on the tuple without these attributes (`merged`):

    * after one expansion the nested tuples still keep apart (`Apart.expand`), and the attributes
      yet to come hold what they held (`held_expand`), so the same picks are left to be made;
    * it makes no difference whether the nested tuple is put on before or after the other
      attributes are taken away (`merged_expand`).

  What stands in a product under an attribute is what the one pick that has it says, or else what
  the tuple had (`get?_merged_of_contains`, `get?_merged_of_lacks`).  Nothing in this depends on
  how the attributes are listed (`exists_merged_relisted`).
-/
import TrieCollections.Proofs.SetContents
import TrieCollections.Proofs.UnnestOrder

namespace TrieCollections

open TrieMap (ReachableWith)

/-! ### Updates with several maps -/

namespace TrieMap

variable {κ ν : Type} [BEq κ] [Hashed κ] [Hashed ν] {ok : κ → Prop} {okValue : ν → Prop}

/-- A map updated with several maps, one after the other. -/
def updateMany (m : TrieMap κ ν) (ns : List (TrieMap κ ν)) : TrieMap κ ν := ns.foldl update m

variable (law : LawfulOn ok) {m m' : TrieMap κ ν} {ns : List (TrieMap κ ν)}

include law

theorem ReachableWith.updateMany (hm : m.ReachableWith ok okValue)
    (hns : ∀ n ∈ ns, n.ReachableWith ok okValue) : (m.updateMany ns).ReachableWith ok okValue :=
  List.foldlRecOn (motive := fun out : TrieMap κ ν => out.ReachableWith ok okValue) ns _ hm
    fun _ hout n hn => hout.update law (hns n hn)

/-- Of the maps that have a key the last one counts. -/
theorem get?_updateMany (hm : m.trie.WellFormed ok) (hns : ∀ n ∈ ns, n.trie.WellFormed ok) {k : κ}
    (hk : ok k) :
    (m.updateMany ns).get? k = (ns.reverse.findSome? (get? · k)).or (m.get? k) := by
  induction ns generalizing m with
  | nil => rfl
  | cons n ns ih =>
    have hn := hns n List.mem_cons_self
    show ((m.update n).updateMany ns).get? k = _
    rw [ih (wellFormed_update law hm hn) fun n' hn' => hns n' (List.mem_cons_of_mem _ hn'),
      get?_update law hm hn hk, List.reverse_cons, List.findSome?_append, Option.or_assoc]
    simp

theorem updateMany_congr [BEq ν] (lawValue : LawfulOn okValue) (hm : m.ReachableWith ok okValue)
    (hm' : m'.ReachableWith ok okValue) (h : (m == m') = true)
    (hns : ∀ n ∈ ns, n.ReachableWith ok okValue) :
    (m.updateMany ns == m'.updateMany ns) = true := by
  induction ns generalizing m m' with
  | nil => exact h
  | cons n ns ih =>
    have hn := hns n List.mem_cons_self
    have hwn := hn.wellFormed law
    refine ih (hm.update law hn) (hm'.update law hn) ?_
      fun n' hn' => hns n' (List.mem_cons_of_mem _ hn')
    exact update_congr law lawValue (hm.wellFormed law) (hm'.wellFormed law) h hwn hwn
      ((TrieMap.lawfulOn law lawValue).refl hwn)

end TrieMap

namespace Relation

variable {κ ν : Type} [BEq κ] [Hashed κ] [BEq ν] [Hashed ν] [HoldsRelation κ ν] {ok : κ → Prop}
  {okValue : ν → Prop}

/-! ### What one tuple comes to -/

/-- The tuples that one tuple stands for once all of some attributes are unnested. -/
def expansions : List κ → Tuple κ ν → List (Tuple κ ν)
  | [], t => [t]
  | attr :: attrs, t => (expansion attr t).flatMap (expansions attrs)

/-- The attributes under which a tuple holds a relation. -/
def held (attrs : List κ) (t : Tuple κ ν) : List κ := attrs.filter fun a => (nested? a t).isSome

/-- Under each attribute that holds a relation one of the nested tuples is picked. -/
def Picks (attrs : List κ) (t : Tuple κ ν) (pick : κ → Tuple κ ν) : Prop :=
  ∀ a ∈ attrs, ∀ r, nested? a t = some r → pick a ∈ r.toList

/-- A tuple without the attributes that hold a relation, merged with what is picked under them. -/
def merged (attrs : List κ) (t : Tuple κ ν) (pick : κ → Tuple κ ν) : Tuple κ ν :=
  (TrieMap.eraseMany t (held attrs t)).updateMany ((held attrs t).map pick)

/-- What is nested in a tuple keeps apart: it has no attribute in common with the tuple, none of
    those that are unnested, and none in common with what is nested under another one. -/
structure Apart (ok : κ → Prop) (attrs : List κ) (t : Tuple κ ν) : Prop where
  outer : ∀ a ∈ attrs, ∀ r, nested? a t = some r → ∀ x ∈ r.toList, ∀ k, ok k →
    (TrieMap.contains x k && TrieMap.contains t k) = false
  unnested : ∀ a ∈ attrs, ∀ r, nested? a t = some r → ∀ x ∈ r.toList, ∀ b ∈ attrs,
    TrieMap.contains x b = false
  other : ∀ a ∈ attrs, ∀ b ∈ attrs, (a == b) = false → ∀ r q, nested? a t = some r →
    nested? b t = some q → ∀ x ∈ r.toList, ∀ y ∈ q.toList, ∀ k, ok k →
      (TrieMap.contains x k && TrieMap.contains y k) = false

omit [BEq ν] in
theorem mem_held {attrs : List κ} {t : Tuple κ ν} {a : κ} :
    a ∈ held attrs t ↔ a ∈ attrs ∧ ∃ r, nested? a t = some r := by
  rw [held, List.mem_filter, Option.isSome_iff_exists]

section Cons

variable {attr : κ} {attrs : List κ} {t : Tuple κ ν}

omit [BEq ν] in
theorem held_cons_of_none (h : nested? attr t = none) :
    held (attr :: attrs) t = held attrs t := by
  simp [held, h]

omit [BEq ν] in
theorem held_cons_of_some {r : Relation κ ν} (h : nested? attr t = some r) :
    held (attr :: attrs) t = attr :: held attrs t := by
  simp [held, h]

omit [BEq ν] in
theorem merged_cons_of_none (h : nested? attr t = none) :
    merged (attr :: attrs) t = merged attrs t := by
  funext pick
  rw [merged, merged, held_cons_of_none h]

omit [BEq ν] in
theorem picks_cons_of_none (h : nested? attr t = none) {pick : κ → Tuple κ ν} :
    Picks (attr :: attrs) t pick ↔ Picks attrs t pick := by
  simp [Picks, h]

omit [BEq ν] in
theorem picks_cons_of_some {r : Relation κ ν} (h : nested? attr t = some r)
    {pick : κ → Tuple κ ν} :
    Picks (attr :: attrs) t pick ↔ pick attr ∈ r.toList ∧ Picks attrs t pick := by
  simp [Picks, h]

end Cons

omit [BEq ν] in
theorem picks_congr {attrs : List κ} {t : Tuple κ ν} {pick pick' : κ → Tuple κ ν}
    (h : ∀ a ∈ attrs, pick a = pick' a) : Picks attrs t pick ↔ Picks attrs t pick' := by
  refine forall₂_congr fun a ha => ?_
  rw [h a ha]

omit [BEq ν] in
theorem merged_congr {attrs : List κ} {t : Tuple κ ν} {pick pick' : κ → Tuple κ ν}
    (h : ∀ a ∈ attrs, pick a = pick' a) : merged attrs t pick = merged attrs t pick' := by
  have hsame : (held attrs t).map pick = (held attrs t).map pick' :=
    List.map_congr_left fun a ha => h a (mem_held.mp ha).1
  rw [merged, merged, hsame]

omit [BEq ν] in
theorem Apart.tail {attr : κ} {attrs : List κ} {t : Tuple κ ν} (h : Apart ok (attr :: attrs) t) :
    Apart ok attrs t where
  outer a ha := h.outer a (List.mem_cons_of_mem _ ha)
  unnested a ha r hr x hx b hb :=
    h.unnested a (List.mem_cons_of_mem _ ha) r hr x hx b (List.mem_cons_of_mem _ hb)
  other a ha b hb := h.other a (List.mem_cons_of_mem _ ha) b (List.mem_cons_of_mem _ hb)

section Tuples

variable (law : LawfulOn ok) (holding : LawfulHolding ok okValue) {attr : κ} {attrs : List κ}
  {t : Tuple κ ν}

include law holding

theorem reachableWith_pick (hattrs : Distinct ok attrs) (ht : ReachableWith ok okValue t)
    {pick : κ → Tuple κ ν} (hpick : Picks attrs t pick) :
    ∀ a ∈ held attrs t, ReachableWith ok okValue (pick a) := by
  intro a ha
  obtain ⟨hmem, r, hr⟩ := mem_held.mp ha
  have hnested := wellFormed_nested law holding (hattrs.lawful a hmem) ht hr
  exact TrieSet.lawful_of_mem hnested (hpick a hmem r hr)

/-! ### One expansion -/

section Expand

variable (hattrs : Distinct ok (attr :: attrs)) (ht : ReachableWith ok okValue t)
  (hapart : Apart ok (attr :: attrs) t) {r : Relation κ ν} (hr : nested? attr t = some r)
  {y : Tuple κ ν} (hy : y ∈ r.toList)

include hattrs ht hapart hr hy

/-- The attributes yet to come hold what they held. -/
theorem nested?_expand : ∀ a ∈ attrs,
    nested? a ((TrieMap.erase t attr).update y) = nested? a t := by
  intro a ha
  have hattr := hattrs.lawful attr List.mem_cons_self
  have hoky := TrieSet.lawful_of_mem (wellFormed_nested law holding hattr ht hr) hy
  have hlacks := hapart.unnested attr List.mem_cons_self r hr y hy a (List.mem_cons_of_mem _ ha)
  exact nested?_of_lacks law hattr (hattrs.tail.lawful a ha) (ht.wellFormed law).trie
    (hoky.wellFormed law).trie (hattrs.head_ne law a ha) hlacks

theorem held_expand : held attrs ((TrieMap.erase t attr).update y) = held attrs t := by
  apply List.filter_congr
  intro a ha
  rw [nested?_expand law holding hattrs ht hapart hr hy a ha]

theorem picks_expand_iff (pick : κ → Tuple κ ν) :
    Picks attrs ((TrieMap.erase t attr).update y) pick ↔ Picks attrs t pick := by
  refine forall₂_congr fun a ha => ?_
  rw [nested?_expand law holding hattrs ht hapart hr hy a ha]

/-- **What is nested still keeps apart after one expansion.** -/
theorem Apart.expand : Apart ok attrs ((TrieMap.erase t attr).update y) := by
  have hattr := hattrs.lawful attr List.mem_cons_self
  have hoky := TrieSet.lawful_of_mem (wellFormed_nested law holding hattr ht hr) hy
  have hnested := nested?_expand law holding hattrs ht hapart hr hy
  have htail := hapart.tail
  refine ⟨?outer, ?unnested, ?other⟩
  case outer =>
    intro a ha q hq x hx k hk
    rw [hnested a ha] at hq
    have hout := htail.outer a ha q hq x hx k hk
    have hin := hapart.other a (List.mem_cons_of_mem _ ha) attr List.mem_cons_self
      (hattrs.head_ne law a ha) q r hq hr x hx y hy k hk
    rw [TrieMap.contains_update law (TrieMap.wellFormed_erase law (ht.wellFormed law).trie hattr)
      (hoky.wellFormed law).trie hk, TrieMap.contains_erase law (ht.wellFormed law).trie hattr hk]
    cases hxk : TrieMap.contains x k
    · rfl
    · rw [hxk, Bool.true_and] at hout hin
      rw [hout, hin, Bool.and_false]
      rfl
  case unnested =>
    intro a ha q hq
    exact htail.unnested a ha q (hnested a ha ▸ hq)
  case other =>
    intro a ha b hb hne q q' hq hq'
    exact htail.other a ha b hb hne q q' (hnested a ha ▸ hq) (hnested b hb ▸ hq')

/-- **A nested tuple can be put on before or after the other attributes are taken away.** -/
theorem merged_expand (lawValue : LawfulOn okValue) {pick : κ → Tuple κ ν}
    (hpick : Picks (attr :: attrs) t pick) (hhead : pick attr = y) :
    (merged attrs ((TrieMap.erase t attr).update y) pick == merged (attr :: attrs) t pick) =
      true := by
  have hattr := hattrs.lawful attr List.mem_cons_self
  have hoky := TrieSet.lawful_of_mem (wellFormed_nested law holding hattr ht hr) hy
  have hpicked := reachableWith_pick law holding hattrs ht hpick
  have hheld : ∀ a ∈ held attrs t, ok a := fun a ha => hattrs.tail.lawful a (mem_held.mp ha).1
  rw [merged, merged, held_expand law holding hattrs ht hapart hr hy, held_cons_of_some hr,
    List.map_cons, hhead]
  rw [held_cons_of_some hr] at hpicked
  have herase := ht.erase law hattr
  have hbefore := (herase.update law hoky).eraseMany law hheld
  have hafter := (herase.eraseMany law hheld).update law hoky
  refine TrieMap.updateMany_congr law lawValue hbefore hafter ?_ ?_
  · apply TrieMap.beq_of_get?_eq law lawValue (hbefore.wellFormed law) (hafter.wellFormed law)
    intro k hk
    have hwe := (herase.wellFormed law).trie
    have hwy := (hoky.wellFormed law).trie
    rw [TrieMap.get?_eraseMany law (TrieMap.wellFormed_update law hwe hwy) hheld hk,
      TrieMap.get?_update law hwe hwy hk,
      TrieMap.get?_update law (TrieMap.wellFormed_eraseMany law hwe hheld) hwy hk,
      TrieMap.get?_eraseMany law hwe hheld hk]
    by_cases hany : (held attrs t).any (k == ·) = true
    · -- the nested tuple has none of the attributes that are taken away
      obtain ⟨a, ha, hka⟩ := List.any_eq_true.mp hany
      have hlacks := hapart.unnested attr List.mem_cons_self r hr y hy a
        (List.mem_cons_of_mem _ (mem_held.mp ha).1)
      rw [TrieMap.contains, Option.isSome_eq_false_iff, Option.isNone_iff_eq_none] at hlacks
      rw [TrieMap.get?_congr law hwy hk (hheld a ha) hka, hlacks, hany]
      rfl
    · rw [Bool.eq_false_iff.mpr hany]
      rfl
  · intro n hn
    obtain ⟨a, ha, rfl⟩ := List.mem_map.mp hn
    exact hpicked a (List.mem_cons_of_mem _ ha)

end Expand

/-! ### Products -/

section Products

variable (lawValue : LawfulOn okValue) (hattrs : Distinct ok attrs)
  (ht : ReachableWith ok okValue t) (hapart : Apart ok attrs t) {pick : κ → Tuple κ ν}
  (hpick : Picks attrs t pick)

include hattrs ht hpick

theorem reachableWith_merged : ReachableWith ok okValue (merged attrs t pick) := by
  refine (ht.eraseMany law fun a ha => hattrs.lawful a (mem_held.mp ha).1).updateMany law ?_
  intro n hn
  obtain ⟨a, ha, rfl⟩ := List.mem_map.mp hn
  exact reachableWith_pick law holding hattrs ht hpick a ha

theorem get?_merged {k : κ} (hk : ok k) : (merged attrs t pick).get? k =
    (((held attrs t).map pick).reverse.findSome? (TrieMap.get? · k)).or
      (if (held attrs t).any (k == ·) then none else TrieMap.get? t k) := by
  have hheld : ∀ a ∈ held attrs t, ok a := fun a ha => hattrs.lawful a (mem_held.mp ha).1
  have hpicked := reachableWith_pick law holding hattrs ht hpick
  have hwe := (ht.eraseMany law hheld).wellFormed law
  rw [merged, TrieMap.get?_updateMany law hwe.trie ?_ hk,
    TrieMap.get?_eraseMany law (ht.wellFormed law).trie hheld hk]
  intro n hn
  obtain ⟨a, ha, rfl⟩ := List.mem_map.mp hn
  exact ((hpicked a ha).wellFormed law).trie

/-- What no pick has stands as it stood, unless it held a relation. -/
theorem get?_merged_of_lacks {k : κ} (hk : ok k)
    (hlacks : ∀ a ∈ held attrs t, TrieMap.contains (pick a) k = false) :
    (merged attrs t pick).get? k =
      if (held attrs t).any (k == ·) then none else TrieMap.get? t k := by
  have hnone : ((held attrs t).map pick).reverse.findSome? (TrieMap.get? · k) = none := by
    rw [List.findSome?_eq_none_iff]
    intro n hn
    obtain ⟨a, ha, rfl⟩ := List.mem_map.mp (List.mem_reverse.mp hn)
    simpa [TrieMap.contains] using hlacks a ha
  rw [get?_merged law holding hattrs ht hpick hk, hnone, Option.none_or]

include hapart

/-- What a pick has stands as it has it. -/
theorem get?_merged_of_contains {k : κ} (hk : ok k) {a : κ} (ha : a ∈ held attrs t)
    (hhas : TrieMap.contains (pick a) k = true) :
    (merged attrs t pick).get? k = TrieMap.get? (pick a) k := by
  obtain ⟨v, hv⟩ : ∃ v,
      ((held attrs t).map pick).reverse.findSome? (TrieMap.get? · k) = some v := by
    rw [← Option.isSome_iff_exists, List.findSome?_isSome_iff]
    exact ⟨pick a, List.mem_reverse.mpr (List.mem_map_of_mem ha), hhas⟩
  -- the pick that was found is this one, as no other has the attribute
  obtain ⟨n, hn, hvn⟩ := List.exists_of_findSome?_eq_some hv
  obtain ⟨b, hb, rfl⟩ := List.mem_map.mp (List.mem_reverse.mp hn)
  have hsame : a = b := by
    obtain ⟨hmem, r, hr⟩ := mem_held.mp ha
    obtain ⟨hmem', q, hq⟩ := mem_held.mp hb
    by_contra hne
    have hbeq : (a == b) = false :=
      Bool.eq_false_iff.mpr fun heq => hne (hattrs.eq_of_beq law hmem hmem' heq)
    have hnot := hapart.other a hmem b hmem' hbeq r q hr hq (pick a) (hpick a hmem r hr) (pick b)
      (hpick b hmem' q hq) k hk
    rw [hhas, TrieMap.contains, hvn] at hnot
    cases hnot
  rw [get?_merged law holding hattrs ht hpick hk, hv, hsame, hvn]
  rfl

/-- Plain values stay, and so does everything under the attributes that are not unnested. -/
theorem get?_merged_of_plain {k : κ} (hk : ok k) {v : ν} (hv : TrieMap.get? t k = some v)
    (hplain : attrs.any (k == ·) = true →
      (HoldsRelation.asRelation? v : Option (Relation κ ν)) = none) :
    (merged attrs t pick).get? k = some v := by
  have hhas : TrieMap.contains t k = true := by
    rw [TrieMap.contains, hv]
    rfl
  have hlacks : ∀ a ∈ held attrs t, TrieMap.contains (pick a) k = false := by
    intro a ha
    obtain ⟨hmem, r, hr⟩ := mem_held.mp ha
    have hnot := hapart.outer a hmem r hr (pick a) (hpick a hmem r hr) k hk
    rwa [hhas, Bool.and_true] at hnot
  have hnone : (held attrs t).any (k == ·) = false := by
    rw [Bool.eq_false_iff]
    intro hany
    obtain ⟨a, ha, hka⟩ := List.any_eq_true.mp hany
    obtain ⟨hmem, r, hr⟩ := mem_held.mp ha
    have hget := TrieMap.get?_congr law (ht.wellFormed law).trie hk (hattrs.lawful a hmem) hka
    rw [nested?, ← hget, hv, Option.bind_some,
      hplain (List.any_eq_true.mpr ⟨a, hmem, hka⟩)] at hr
    cases hr
  rw [get?_merged_of_lacks law holding hattrs ht hpick hk hlacks, hnone, hv]
  rfl

end Products

/-! ### A tuple comes to its products -/

section Expansions

theorem reachableWith_expansions (hattrs : Distinct ok attrs) (ht : ReachableWith ok okValue t)
    {x : Tuple κ ν} (hx : x ∈ expansions attrs t) : ReachableWith ok okValue x := by
  induction attrs generalizing t with
  | nil =>
    rw [expansions, List.mem_singleton] at hx
    rw [hx]
    exact ht
  | cons attr attrs ih =>
    rw [expansions] at hx
    obtain ⟨t', ht', hx⟩ := List.mem_flatMap.mp hx
    have hattr := hattrs.lawful attr List.mem_cons_self
    exact ih hattrs.tail (reachableWith_of_mem_expansion law holding hattr ht t' ht') hx

variable (lawValue : LawfulOn okValue)

include lawValue

/-- Whatever a tuple expands to is a product. -/
theorem exists_picks_of_mem_expansions (hattrs : Distinct ok attrs)
    (ht : ReachableWith ok okValue t) (hapart : Apart ok attrs t) {x : Tuple κ ν}
    (hx : x ∈ expansions attrs t) :
    ∃ pick, Picks attrs t pick ∧ (x == merged attrs t pick) = true := by
  have lawTuple := TrieMap.lawfulOn_reachableWith law lawValue
  induction attrs generalizing t with
  | nil =>
    rw [expansions, List.mem_singleton] at hx
    rw [hx]
    exact ⟨fun _ => .empty, fun a ha => absurd ha List.not_mem_nil, lawTuple.refl ht⟩
  | cons attr attrs ih =>
    have hattr := hattrs.lawful attr List.mem_cons_self
    rw [expansions] at hx
    obtain ⟨t', ht', hx⟩ := List.mem_flatMap.mp hx
    have hokt' := reachableWith_of_mem_expansion law holding hattr ht t' ht'
    rcases hr : nested? attr t with _ | r
    case none =>
      rw [expansion_of_none hr, List.mem_singleton] at ht'
      rw [ht'] at hx
      obtain ⟨pick, hpick, heq⟩ := ih hattrs.tail ht hapart.tail hx
      rw [merged_cons_of_none hr]
      exact ⟨pick, (picks_cons_of_none hr).mpr hpick, heq⟩
    case some =>
      rw [expansion_of_some hr] at ht'
      obtain ⟨y, hy, rfl⟩ := List.mem_map.mp ht'
      have hapart' := hapart.expand law holding hattrs ht hr hy
      obtain ⟨pick, hpick, heq⟩ := ih hattrs.tail hokt' hapart' hx
      -- the nested tuple that was expanded to is the pick under the first attribute
      let extended : κ → Tuple κ ν := fun a => if a == attr then y else pick a
      have hhead : extended attr = y := by simp [extended, law.refl hattr]
      have hrest : ∀ a ∈ attrs, pick a = extended a := by
        intro a ha
        simp [extended, hattrs.head_ne law a ha]
      rw [picks_expand_iff law holding hattrs ht hapart hr hy, picks_congr hrest] at hpick
      have hextended : Picks (attr :: attrs) t extended :=
        (picks_cons_of_some hr).mpr ⟨hhead ▸ hy, hpick⟩
      rw [merged_congr hrest] at heq
      have hswap := merged_expand law holding hattrs ht hapart hr hy lawValue hextended hhead
      refine ⟨extended, hextended, lawTuple.trans ?_ ?_ ?_ heq hswap⟩
      · exact reachableWith_expansions law holding hattrs.tail hokt' hx
      · exact reachableWith_merged law holding hattrs.tail hokt'
          ((picks_expand_iff law holding hattrs ht hapart hr hy extended).mpr hpick)
      · exact reachableWith_merged law holding hattrs ht hextended

theorem exists_mem_expansions_of_picks (hattrs : Distinct ok attrs)
    (ht : ReachableWith ok okValue t) (hapart : Apart ok attrs t) {pick : κ → Tuple κ ν}
    (hpick : Picks attrs t pick) :
    ∃ x ∈ expansions attrs t, (merged attrs t pick == x) = true := by
  have lawTuple := TrieMap.lawfulOn_reachableWith law lawValue
  induction attrs generalizing t with
  | nil => exact ⟨t, List.mem_singleton_self t, lawTuple.refl ht⟩
  | cons attr attrs ih =>
    have hattr := hattrs.lawful attr List.mem_cons_self
    rcases hr : nested? attr t with _ | r
    case none =>
      obtain ⟨x, hx, heq⟩ := ih hattrs.tail ht hapart.tail ((picks_cons_of_none hr).mp hpick)
      rw [merged_cons_of_none hr]
      exact ⟨x, List.mem_flatMap.mpr ⟨t, mem_expansion_self hr, hx⟩, heq⟩
    case some =>
      obtain ⟨hy, hrest⟩ := (picks_cons_of_some hr).mp hpick
      have ht' := update_mem_expansion hr hy
      have hokt' := reachableWith_of_mem_expansion law holding hattr ht _ ht'
      have hapart' := hapart.expand law holding hattrs ht hr hy
      have hpick' := (picks_expand_iff law holding hattrs ht hapart hr hy pick).mpr hrest
      obtain ⟨x, hx, heq⟩ := ih hattrs.tail hokt' hapart' hpick'
      have hswap := merged_expand law holding hattrs ht hapart hr hy lawValue hpick rfl
      have hokbefore := reachableWith_merged law holding hattrs.tail hokt' hpick'
      have hokafter := reachableWith_merged law holding hattrs ht hpick
      refine ⟨x, List.mem_flatMap.mpr ⟨_, ht', hx⟩, lawTuple.trans hokafter hokbefore ?_ ?_ heq⟩
      · exact reachableWith_expansions law holding hattrs.tail hokt' hx
      · exact lawTuple.symm hokbefore hokafter hswap

end Expansions

/-! ### The attributes listed otherwise -/

section Relisted

omit [BEq ν] holding in
theorem nested?_congr (ht : t.trie.WellFormed ok) {a b : κ} (ha : ok a) (hb : ok b)
    (heq : (a == b) = true) : nested? a t = nested? b t := by
  rw [nested?, nested?, TrieMap.get?_congr law ht ha hb heq]

variable {attrs' : List κ} (hattrs : Distinct ok attrs) (hattrs' : Distinct ok attrs')
  (hsame : ∀ k, ok k → attrs.any (k == ·) = attrs'.any (k == ·))
  (ht : ReachableWith ok okValue t)

omit [BEq ν] holding in
theorem any_held (hattrs : Distinct ok attrs) (ht : t.trie.WellFormed ok) {k : κ} (hk : ok k) :
    (held attrs t).any (k == ·) = (attrs.any (k == ·) && (nested? k t).isSome) := by
  rw [Bool.eq_iff_iff, Bool.and_eq_true, List.any_eq_true, List.any_eq_true]
  constructor
  · rintro ⟨a, ha, hka⟩
    obtain ⟨hmem, r, hr⟩ := mem_held.mp ha
    rw [nested?_congr law ht hk (hattrs.lawful a hmem) hka, hr]
    exact ⟨⟨a, hmem, hka⟩, rfl⟩
  · rintro ⟨⟨a, ha, hka⟩, hnested⟩
    rw [nested?_congr law ht hk (hattrs.lawful a ha) hka] at hnested
    exact ⟨a, mem_held.mpr ⟨ha, Option.isSome_iff_exists.mp hnested⟩, hka⟩

include hattrs hattrs' hsame

omit [BEq ν] [Hashed ν] [HoldsRelation κ ν] hattrs holding in
/-- Each attribute of the one list has an equal one in the other. -/
theorem exists_relisted {a : κ} (ha : a ∈ attrs') : ∃ b ∈ attrs, (a == b) = true := by
  have hok := hattrs'.lawful a ha
  rw [← List.any_eq_true, hsame a hok, List.any_eq_true]
  exact ⟨a, ha, law.refl hok⟩

omit [BEq ν] holding in
theorem exists_held_relisted (ht : t.trie.WellFormed ok) {a : κ} (ha : a ∈ held attrs' t) :
    ∃ b ∈ held attrs t, (a == b) = true := by
  obtain ⟨hmem, r, hr⟩ := mem_held.mp ha
  obtain ⟨b, hb, heq⟩ := exists_relisted law hattrs' hsame hmem
  rw [nested?_congr law ht (hattrs'.lawful a hmem) (hattrs.lawful b hb) heq] at hr
  exact ⟨b, mem_held.mpr ⟨hb, r, hr⟩, heq⟩

include ht

theorem Apart.relist (hapart : Apart ok attrs t) : Apart ok attrs' t := by
  have hwt := (ht.wellFormed law).trie
  have hlisted : ∀ a ∈ attrs', ∃ b ∈ attrs, (a == b) = true ∧ nested? a t = nested? b t := by
    intro a ha
    obtain ⟨b, hb, heq⟩ := exists_relisted law hattrs' hsame ha
    exact ⟨b, hb, heq, nested?_congr law hwt (hattrs'.lawful a ha) (hattrs.lawful b hb) heq⟩
  refine ⟨?outer, ?unnested, ?other⟩
  case outer =>
    intro a ha r hr
    obtain ⟨b, hb, -, hnested⟩ := hlisted a ha
    exact hapart.outer b hb r (hnested ▸ hr)
  case unnested =>
    intro a ha r hr x hx c hc
    obtain ⟨b, hb, -, hnested⟩ := hlisted a ha
    obtain ⟨d, hd, hcd, -⟩ := hlisted c hc
    have hwr := wellFormed_nested law holding (hattrs'.lawful a ha) ht hr
    have hwx := ((TrieSet.lawful_of_mem hwr hx).wellFormed law).trie
    rw [TrieMap.contains, TrieMap.get?_congr law hwx (hattrs'.lawful c hc) (hattrs.lawful d hd) hcd]
    exact hapart.unnested b hb r (hnested ▸ hr) x hx d hd
  case other =>
    intro a ha c hc hne r q hr hq
    obtain ⟨b, hb, hab, hnested⟩ := hlisted a ha
    obtain ⟨d, hd, hcd, hnested'⟩ := hlisted c hc
    have hoka := hattrs'.lawful a ha
    have hokc := hattrs'.lawful c hc
    have hokb := hattrs.lawful b hb
    have hokd := hattrs.lawful d hd
    have hne' : (b == d) = false := by
      rw [Bool.eq_false_iff]
      intro hbd
      rw [law.trans hoka hokb hokc hab
        (law.trans hokb hokd hokc hbd (law.symm hokc hokd hcd))] at hne
      cases hne
    exact hapart.other b hb d hd hne' r q (hnested ▸ hr) (hnested' ▸ hq)

variable {pick pick' : κ → Tuple κ ν} (hpick : Picks attrs t pick)
  (hpick' : Picks attrs' t pick')
  (hagree : ∀ a ∈ attrs', ∀ b ∈ attrs, (a == b) = true → pick' a = pick b)

include hpick hpick' hagree

/-- The same picks make the same product. -/
theorem merged_relisted (lawValue : LawfulOn okValue) (hapart : Apart ok attrs t) :
    (merged attrs t pick == merged attrs' t pick') = true := by
  have hwt := (ht.wellFormed law).trie
  have hapart' := hapart.relist law holding hattrs hattrs' hsame ht
  have hmerged := reachableWith_merged law holding hattrs ht hpick
  have hmerged' := reachableWith_merged law holding hattrs' ht hpick'
  apply TrieMap.beq_of_get?_eq law lawValue (hmerged.wellFormed law) (hmerged'.wellFormed law)
  intro k hk
  by_cases hhas : ∃ a ∈ held attrs' t, TrieMap.contains (pick' a) k = true
  · obtain ⟨a, ha, hcontains⟩ := hhas
    obtain ⟨b, hb, heq⟩ := exists_held_relisted law hattrs hattrs' hsame hwt ha
    have hpicked := hagree a (mem_held.mp ha).1 b (mem_held.mp hb).1 heq
    rw [get?_merged_of_contains law holding hattrs' ht hapart' hpick' hk ha hcontains,
      get?_merged_of_contains law holding hattrs ht hapart hpick hk hb (hpicked ▸ hcontains),
      hpicked]
  · have hlacks' : ∀ a ∈ held attrs' t, TrieMap.contains (pick' a) k = false :=
      fun a ha => Bool.eq_false_iff.mpr fun hcontains => hhas ⟨a, ha, hcontains⟩
    have hlacks : ∀ b ∈ held attrs t, TrieMap.contains (pick b) k = false := by
      intro b hb
      obtain ⟨a, ha, heq⟩ :=
        exists_held_relisted law hattrs' hattrs (fun l hl => (hsame l hl).symm) hwt hb
      have hmem := (mem_held.mp hb).1
      have hmem' := (mem_held.mp ha).1
      rw [← hagree a hmem' b hmem
        (law.symm (hattrs.lawful b hmem) (hattrs'.lawful a hmem') heq)]
      exact hlacks' a ha
    rw [get?_merged_of_lacks law holding hattrs' ht hpick' hk hlacks',
      get?_merged_of_lacks law holding hattrs ht hpick hk hlacks, any_held law hattrs hwt hk,
      any_held law hattrs' hwt hk, hsame k hk]

omit [BEq ν] holding hpick' hagree in
/-- Picks under the one list are picks under the other. -/
theorem exists_picks_relisted : ∃ pick', Picks attrs' t pick' ∧
    ∀ a ∈ attrs', ∀ b ∈ attrs, (a == b) = true → pick' a = pick b := by
  have hwt := (ht.wellFormed law).trie
  let pick' : κ → Tuple κ ν := fun a => pick ((attrs.find? (a == ·)).getD a)
  have hagree : ∀ a ∈ attrs', ∀ b ∈ attrs, (a == b) = true → pick' a = pick b := by
    intro a ha b hb heq
    have hoka := hattrs'.lawful a ha
    obtain ⟨c, hc⟩ := Option.isSome_iff_exists.mp (List.find?_isSome.mpr ⟨b, hb, heq⟩)
    have hmem := List.mem_of_find?_eq_some hc
    have hokc := hattrs.lawful c hmem
    have hcb := law.trans hokc hoka (hattrs.lawful b hb)
      (law.symm hoka hokc (List.find?_some hc)) heq
    show pick ((attrs.find? (a == ·)).getD a) = pick b
    rw [hc, Option.getD_some, hattrs.eq_of_beq law hmem hb hcb]
  refine ⟨pick', ?_, hagree⟩
  intro a ha r hr
  obtain ⟨b, hb, heq⟩ := exists_relisted law hattrs' hsame ha
  rw [nested?_congr law hwt (hattrs'.lawful a ha) (hattrs.lawful b hb) heq] at hr
  rw [hagree a ha b hb heq]
  exact hpick b hb r hr

omit hpick' hagree in
/-- **Each product under the one list is one under the other.** -/
theorem exists_merged_relisted (lawValue : LawfulOn okValue) (hapart : Apart ok attrs t) :
    ∃ pick', Picks attrs' t pick' ∧ (merged attrs t pick == merged attrs' t pick') = true := by
  obtain ⟨pick', hpick', hagree⟩ := exists_picks_relisted law hattrs hattrs' hsame ht hpick
  exact ⟨pick', hpick', merged_relisted law holding hattrs hattrs' hsame ht hpick hpick' hagree
    lawValue hapart⟩

end Relisted

end Tuples

end Relation

end TrieCollections
