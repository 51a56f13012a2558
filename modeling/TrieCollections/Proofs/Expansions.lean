/-
  TrieCollections/Proofs/Expansions.lean
  ======================================
  **What unnesting does to one tuple.**  A tuple that holds a relation under an attribute
  *expands* to one tuple for each nested one, and any other tuple expands to itself
  (`expansion`).  To unnest an attribute of a relation is to put in the expansions of all its
  tuples (`unnestOne_eq`), so everything about unnesting is a fact about expansions.

  A relation keeps one of several equal tuples, and which one is a matter of history.  For what
  is in the result this makes no difference: equal tuples have equal expansions
  (`exists_mem_expansion_of_beq`).  So two attributes unnested one after the other give the
  expansions of the expansions, whichever tuples the relation in between has kept
  (`contains_unnestOne_unnestOne`).

  All this asks of the values is that a relation put into a value can be taken out again, and
  that equal values hold equal relations (`LawfulHolding`).  Values of mixed kinds meet it as far
  as they are built (`Value.lawfulHolding_built`).
-/
import TrieCollections.Proofs.BuiltValues

namespace TrieCollections

open TrieMap (ReachableWith)

/-- Values that satisfy `okValue` hold relations over such values, and hold them faithfully. -/
structure LawfulHolding {κ ν : Type} [BEq κ] [Hashed κ] [BEq ν] [Hashed ν] [HoldsRelation κ ν]
    (ok : κ → Prop) (okValue : ν → Prop) : Prop where
  /-- What is put into a value can be taken out. -/
  asRelation?_ofRelation : ∀ r : Relation κ ν, r.Reachable (ReachableWith ok okValue) →
    HoldsRelation.asRelation? (HoldsRelation.ofRelation r) = some r
  okValue_ofRelation : ∀ r : Relation κ ν, r.Reachable (ReachableWith ok okValue) →
    okValue (HoldsRelation.ofRelation r)
  wellFormed : ∀ (v : ν) (r : Relation κ ν), okValue v → HoldsRelation.asRelation? v = some r →
    r.trie.WellFormed (ReachableWith ok okValue)
  /-- Equal values hold equal relations. -/
  congr : ∀ v w : ν, okValue v → okValue w → (v == w) = true →
    Option.Rel (fun r q : Relation κ ν => (r == q) = true) (HoldsRelation.asRelation? v)
      (HoldsRelation.asRelation? w)

namespace Relation

variable {κ ν : Type} [BEq κ] [Hashed κ] [Hashed ν] [HoldsRelation κ ν]

/-- The relation that a tuple holds under an attribute, if there is one. -/
def nested? (attr : κ) (t : Tuple κ ν) : Option (Relation κ ν) :=
  (TrieMap.get? t attr).bind HoldsRelation.asRelation?

/-- The tuples that one tuple stands for once an attribute is unnested. -/
def expansion (attr : κ) (t : Tuple κ ν) : List (Tuple κ ν) :=
  match nested? attr t with
  | none => [t]
  | some r => r.toList.map (TrieMap.erase t attr).update

theorem expansion_of_none {attr : κ} {t : Tuple κ ν} (h : nested? attr t = none) :
    expansion attr t = [t] := by
  rw [expansion, h]

theorem expansion_of_some {attr : κ} {t : Tuple κ ν} {r : Relation κ ν}
    (h : nested? attr t = some r) :
    expansion attr t = r.toList.map (TrieMap.erase t attr).update := by
  rw [expansion, h]

theorem mem_expansion_self {attr : κ} {t : Tuple κ ν} (h : nested? attr t = none) :
    t ∈ expansion attr t := by
  rw [expansion_of_none h]
  exact List.mem_singleton_self t

theorem update_mem_expansion {attr : κ} {t : Tuple κ ν} {r : Relation κ ν}
    (h : nested? attr t = some r) {a : Tuple κ ν} (ha : a ∈ r.toList) :
    (TrieMap.erase t attr).update a ∈ expansion attr t := by
  rw [expansion_of_some h]
  exact List.mem_map_of_mem ha

theorem nested?_insert {ok : κ → Prop} (law : LawfulOn ok) {t : Tuple κ ν}
    (ht : t.trie.WellFormed ok) {attr attr' : κ} (hattr : ok attr) (hattr' : ok attr') (v : ν) :
    nested? attr' (TrieMap.insert t attr v) =
      if attr' == attr then HoldsRelation.asRelation? v else nested? attr' t := by
  rw [nested?, TrieMap.get?_insert law ht hattr hattr']
  split <;> rfl

variable [BEq ν]

theorem expand_eq (attr : κ) (out : Relation κ ν) (t : Tuple κ ν) :
    expand attr out t = out.insertMany (expansion attr t) := by
  rw [expand, expansion, nested?]
  rcases (TrieMap.get? t attr).bind HoldsRelation.asRelation? with _ | r
  · rfl
  · exact List.foldl_map.symm

theorem unnestOne_eq (rel : Relation κ ν) (attr : κ) :
    rel.unnestOne attr = .ofList (rel.toList.flatMap (expansion attr)) := by
  rw [unnestOne, TrieSet.fold, TrieSet.ofList, TrieSet.insertMany, List.foldl_flatMap]
  congr 1
  funext out t
  exact expand_eq attr out t

/-- A single tuple that holds a single one is replaced by the two put together. -/
theorem unnestOne_unit {attr : κ} {t a : Tuple κ ν} (h : nested? attr t = some (.unit a)) :
    unnestOne (.unit t) attr = .unit ((TrieMap.erase t attr).update a) := by
  rw [unnestOne_eq, TrieSet.toList_unit, List.flatMap_cons, List.flatMap_nil, expansion_of_some h,
    TrieSet.toList_unit]
  rfl

theorem unnest_unit (rel : Relation κ ν) (attr : κ) :
    rel.unnest (.unit attr) = rel.unnestOne attr := by
  rw [unnest, TrieSet.fold, TrieSet.toList_unit, List.foldl_cons, List.foldl_nil]

variable {ok : κ → Prop} {okValue : ν → Prop} (law : LawfulOn ok) (lawValue : LawfulOn okValue)
  (holding : LawfulHolding ok okValue) {rel : Relation κ ν} {attr : κ} (hattr : ok attr)
  {t : Tuple κ ν}

include law holding hattr

theorem wellFormed_nested (ht : ReachableWith ok okValue t) {r : Relation κ ν}
    (hr : nested? attr t = some r) : r.trie.WellFormed (ReachableWith ok okValue) := by
  obtain ⟨v, hv, hvr⟩ := Option.bind_eq_some_iff.mp hr
  exact holding.wellFormed v r ((ht.wellFormed law).okValue_of_get? law hattr hv) hvr

theorem reachableWith_of_mem_expansion (ht : ReachableWith ok okValue t) :
    ∀ x ∈ expansion attr t, ReachableWith ok okValue x := by
  intro x hx
  rcases hr : nested? attr t with _ | r
  · rw [expansion_of_none hr, List.mem_singleton] at hx
    rw [hx]
    exact ht
  · rw [expansion_of_some hr] at hx
    obtain ⟨a, ha, rfl⟩ := List.mem_map.mp hx
    have hoka := TrieSet.lawful_of_mem (wellFormed_nested law holding hattr ht hr) ha
    exact (ht.erase law hattr).update law hoka

theorem reachableWith_of_mem_expansions (hrel : rel.trie.WellFormed (ReachableWith ok okValue)) :
    ∀ x ∈ rel.toList.flatMap (expansion attr), ReachableWith ok okValue x := by
  intro x hx
  obtain ⟨t, ht, hx⟩ := List.mem_flatMap.mp hx
  exact reachableWith_of_mem_expansion law holding hattr (TrieSet.lawful_of_mem hrel ht) x hx

theorem reachable_unnestOne (hrel : rel.trie.WellFormed (ReachableWith ok okValue)) :
    (rel.unnestOne attr).Reachable (ReachableWith ok okValue) := by
  rw [unnestOne_eq]
  exact .ofList (reachableWith_of_mem_expansions law holding hattr hrel)

include lawValue

/-- Equal tuples hold equal relations under an attribute, or none. -/
theorem nested?_of_beq {t' : Tuple κ ν} (ht : ReachableWith ok okValue t)
    (ht' : ReachableWith ok okValue t') (h : (t == t') = true) :
    Option.Rel (fun r q : Relation κ ν => (r == q) = true) (nested? attr t) (nested? attr t') := by
  have hwt := ht.wellFormed law
  have hwt' := ht'.wellFormed law
  have hvalues := (TrieMap.beq_iff_agree law hwt hwt' lawValue).mp h attr hattr
  rw [nested?, nested?]
  rcases hv : TrieMap.get? t attr with _ | v <;> rcases hv' : TrieMap.get? t' attr with _ | v' <;>
    rw [hv, hv'] at hvalues <;> cases hvalues
  · exact .none
  · next heq =>
    exact holding.congr v v' (hwt.okValue_of_get? law hattr hv)
      (hwt'.okValue_of_get? law hattr hv') heq

/-- **Equal tuples expand to equal tuples.** -/
theorem exists_mem_expansion_of_beq {t' : Tuple κ ν} (ht : ReachableWith ok okValue t)
    (ht' : ReachableWith ok okValue t') (h : (t == t') = true) :
    ∀ x ∈ expansion attr t, ∃ x' ∈ expansion attr t', (x == x') = true := by
  have lawTuple := TrieMap.lawfulOn_reachableWith law lawValue
  have hwt := ht.wellFormed law
  have hwt' := ht'.wellFormed law
  have hnested := nested?_of_beq law lawValue holding hattr ht ht' h
  intro x hx
  rcases hr : nested? attr t with _ | r <;> rcases hr' : nested? attr t' with _ | r' <;>
    rw [hr, hr'] at hnested <;> cases hnested
  · rw [expansion_of_none hr, List.mem_singleton] at hx
    rw [hx]
    exact ⟨t', mem_expansion_self hr', h⟩
  · next heq =>
    have hwr := wellFormed_nested law holding hattr ht hr
    have hwr' := wellFormed_nested law holding hattr ht' hr'
    rw [expansion_of_some hr] at hx
    obtain ⟨a, ha, rfl⟩ := List.mem_map.mp hx
    have hoka := TrieSet.lawful_of_mem hwr ha
    have hcontains := TrieSet.contains_of_mem lawTuple hwr ha
    rw [(TrieSet.beq_iff_contains lawTuple hwr hwr').mp heq a hoka,
      TrieSet.contains_iff_mem lawTuple hwr' hoka] at hcontains
    obtain ⟨a', ha', haa'⟩ := hcontains
    have hoka' := TrieSet.lawful_of_mem hwr' ha'
    refine ⟨_, update_mem_expansion hr' ha', ?_⟩
    have herase := TrieMap.erase_congr law lawValue hwt hwt' h hattr hattr (law.refl hattr)
    exact TrieMap.update_congr law lawValue ((ht.erase law hattr).wellFormed law)
      ((ht'.erase law hattr).wellFormed law) herase (hoka.wellFormed law) (hoka'.wellFormed law)
      haa'

section Results

variable (hrel : rel.trie.WellFormed (ReachableWith ok okValue)) {r : Tuple κ ν}

include hrel

/-- The result lists tuples from the expansions. -/
theorem mem_of_mem_unnestOne (hr : r ∈ (rel.unnestOne attr).toList) :
    ∃ t ∈ rel.toList, r ∈ expansion attr t := by
  have lawTuple := TrieMap.lawfulOn_reachableWith law lawValue
  rw [unnestOne_eq] at hr
  exact List.mem_flatMap.mp (TrieSet.mem_of_mem_ofList lawTuple
    (reachableWith_of_mem_expansions law holding hattr hrel) hr)

/-- **Unnested, a relation holds the expansions of its tuples.** -/
theorem contains_unnestOne (hr : ReachableWith ok okValue r) :
    (rel.unnestOne attr).contains r = true ↔
      ∃ t ∈ rel.toList, ∃ x ∈ expansion attr t, (r == x) = true := by
  have lawTuple := TrieMap.lawfulOn_reachableWith law lawValue
  rw [unnestOne_eq, TrieSet.contains_ofList lawTuple
    (reachableWith_of_mem_expansions law holding hattr hrel) hr, List.any_eq_true]
  simp only [List.mem_flatMap]
  constructor
  · rintro ⟨x, ⟨t, ht, hx⟩, heq⟩
    exact ⟨t, ht, x, hx, heq⟩
  · rintro ⟨t, ht, x, hx, heq⟩
    exact ⟨x, ⟨t, ht, hx⟩, heq⟩

/-- Two attributes unnested one after the other give the expansions of the expansions. -/
theorem contains_unnestOne_unnestOne {attr' : κ} (hattr' : ok attr')
    (hr : ReachableWith ok okValue r) :
    ((rel.unnestOne attr).unnestOne attr').contains r = true ↔
      ∃ t ∈ rel.toList, ∃ x ∈ expansion attr t, ∃ y ∈ expansion attr' x, (r == y) = true := by
  have lawTuple := TrieMap.lawfulOn_reachableWith law lawValue
  have hbetween := (reachable_unnestOne law holding hattr hrel).wellFormed lawTuple
  rw [contains_unnestOne law lawValue holding hattr' hbetween hr]
  constructor
  · rintro ⟨x, hx, y, hy, heq⟩
    obtain ⟨t, ht, hx⟩ := mem_of_mem_unnestOne law lawValue holding hattr hrel hx
    exact ⟨t, ht, x, hx, y, hy, heq⟩
  · rintro ⟨t, ht, x, hx, y, hy, heq⟩
    -- the relation in between has kept an equal tuple, and its expansion has an equal one
    have hokx := reachableWith_of_mem_expansion law holding hattr (TrieSet.lawful_of_mem hrel ht) x
      hx
    have hkept : (rel.unnestOne attr).contains x = true := by
      rw [contains_unnestOne law lawValue holding hattr hrel hokx]
      exact ⟨t, ht, x, hx, lawTuple.refl hokx⟩
    obtain ⟨x', hx', hxx'⟩ := (TrieSet.contains_iff_mem lawTuple hbetween hokx).mp hkept
    have hokx' := TrieSet.lawful_of_mem hbetween hx'
    obtain ⟨y', hy', hyy'⟩ :=
      exists_mem_expansion_of_beq law lawValue holding hattr' hokx hokx' hxx' y hy
    have hoky := reachableWith_of_mem_expansion law holding hattr' hokx y hy
    have hoky' := reachableWith_of_mem_expansion law holding hattr' hokx' y' hy'
    exact ⟨x', hx', y', hy', lawTuple.trans hr hoky hoky' heq hyy'⟩

end Results

end Relation

namespace Value

theorem builtTuple_unit (name : String) {v : Value} (hv : v.Built) : BuiltTuple (.unit name v) :=
  .unit lawfulOn_true trivial hv

theorem built_relation {r : Relation String Value} (hr : r.Reachable BuiltTuple) :
    Built (relation r) := .relation hr (fun _ ht => ht.history) fun _ ht => ht.values

/-- Built values hold relations of built values faithfully. -/
theorem lawfulHolding_built : LawfulHolding (fun _ : String => True) Built where
  asRelation?_ofRelation _ _ := rfl
  okValue_ofRelation _ hr := built_relation hr
  wellFormed v r hv hr := by
    cases v <;> cases hr
    exact wellFormed_of_built_relation hv
  congr v w _ _ h := by
    cases beq_iff_alike.mp h with
    | relation heq => exact .some heq
    | _ => exact .none

end Value

end TrieCollections
